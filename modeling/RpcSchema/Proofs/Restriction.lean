import RpcSchema.Proofs.Leads

/-! A rule beside a stricter one, both from the same state. The stricter one ends as the other does,
or it stops with a fatal failure. It may stop whatever the other one does, or deny a value that the
other one gives. -/
namespace RpcSchema.Rule

variable {σ α β : Type}

inductive Restricts (strict lenient : Rule σ α) (b : Buffer) (s : State σ) (stops : Failure → Prop)
    (denies : α → Failure → Prop) : Prop where
  | same (equal : strict b s = lenient b s)
  | stopped (e : Failure) (t : State σ) (ran : strict b s = (.error e, t))
      (fatal : e.isFatal = true) (reason : stops e)
  | denied (e : Failure) (t : State σ) (a : α) (t' : State σ) (ran : strict b s = (.error e, t))
      (fatal : e.isFatal = true) (read : lenient b s = (.ok a, t')) (reason : denies a e)

variable {strict lenient : Rule σ α} {b : Buffer} {s : State σ} {stops : Failure → Prop}
  {denies : α → Failure → Prop}

theorem restricts_self (r : Rule σ α) (b : Buffer) (s : State σ) (stops : Failure → Prop)
    (denies : α → Failure → Prop) : r.Restricts r b s stops denies := .same rfl

namespace Restricts

theorem imp {stops' : Failure → Prop} {denies' : α → Failure → Prop}
    (restricts : strict.Restricts lenient b s stops denies) (stop : ∀ e, stops e → stops' e)
    (deny : ∀ a e, denies a e → denies' a e) : strict.Restricts lenient b s stops' denies' := by
  cases restricts with
  | same equal => exact .same equal
  | stopped e t ran fatal reason => exact .stopped e t ran fatal (stop e reason)
  | denied e t a t' ran fatal read reason => exact .denied e t a t' ran fatal read (deny a e reason)

theorem congr {strict' lenient' : Rule σ α} {s' : State σ}
    (restricts : strict.Restricts lenient b s stops denies) (left : strict' b s' = strict b s)
    (right : lenient' b s' = lenient b s) : strict'.Restricts lenient' b s' stops denies := by
  cases restricts with
  | same equal => exact .same (left.trans (equal.trans right.symm))
  | stopped e t ran fatal reason => exact .stopped e t (left.trans ran) fatal reason
  | denied e t a t' ran fatal read reason =>
    exact .denied e t a t' (left.trans ran) fatal (right.trans read) reason

theorem bind {f g : α → Rule σ β} {denies : β → Failure → Prop}
    (first : strict.Restricts lenient b s stops fun _ _ => False)
    (next : ∀ a s', strict b s = (.ok a, s') → lenient b s = (.ok a, s') →
      (f a).Restricts (g a) b s' stops denies) :
    (strict >>= f).Restricts (lenient >>= g) b s stops denies := by
  cases first with
  | same equal =>
    cases read : lenient b s with
    | mk result s' =>
      have ran := equal.trans read
      cases result with
      | ok a => exact (next a s' ran read).congr (bind_of_ok ran) (bind_of_ok read)
      | error e => exact .same ((bind_of_error ran).trans (bind_of_error read).symm)
  | stopped e t ran fatal reason => exact .stopped e t (bind_of_error ran) fatal reason
  | denied e t a t' ran fatal read reason => exact reason.elim

theorem bind_self {r : Rule σ α} {f g : α → Rule σ β} {denies : β → Failure → Prop}
    {after : α → State σ → Prop} {refused : Failure → State σ → Prop}
    (leads : r.Leads b s after refused)
    (next : ∀ a s', after a s' → (f a).Restricts (g a) b s' stops denies) :
    (r >>= f).Restricts (r >>= g) b s stops denies :=
  bind (.same rfl) fun a s' ran _ => next a s' (leads.of_ok ran)

theorem map {denies' : β → Failure → Prop} (h : α → β)
    (restricts : strict.Restricts lenient b s stops denies)
    (deny : ∀ a e, denies a e → denies' (h a) e) :
    (h <$> strict).Restricts (h <$> lenient) b s stops denies' := by
  cases restricts with
  | same equal =>
    refine .same ?_
    cases read : lenient b s with
    | mk result s' =>
      have ran := equal.trans read
      cases result with
      | ok a => exact (bind_of_ok ran).trans (bind_of_ok read).symm
      | error e => exact (bind_of_error ran).trans (bind_of_error read).symm
  | stopped e t ran fatal reason => exact .stopped e t (bind_of_error ran) fatal reason
  | denied e t a t' ran fatal read reason =>
    exact .denied e t (h a) t' (bind_of_error ran) fatal (bind_of_ok read) (deny a e reason)

theorem firstOf {name : String} {rest rest' : List (Branch σ α)} {entry : Nat}
    {furthest : Option Furthest} (branch : strict.Restricts lenient b s stops denies)
    (later : ∀ e t, lenient b s = (.error e, t) → e.isFatal = false →
      (Rule.firstOf entry rest (some (Furthest.add furthest name e))).Restricts
        (Rule.firstOf entry rest' (some (Furthest.add furthest name e))) b
        ((t.note (.branchFailed name e.position)).moveTo s.offset) stops denies) :
    (Rule.firstOf entry (⟨name, strict⟩ :: rest) furthest).Restricts
      (Rule.firstOf entry (⟨name, lenient⟩ :: rest') furthest) b s stops denies := by
  cases branch with
  | same equal =>
    cases read : lenient b s with
    | mk result t =>
      have ran := equal.trans read
      cases result with
      | ok a => exact .same ((firstOf_cons_of_ok ran).trans (firstOf_cons_of_ok read).symm)
      | error e =>
        cases fatal : e.isFatal with
        | true =>
          exact .same ((firstOf_cons_of_fatal ran fatal).trans
            (firstOf_cons_of_fatal read fatal).symm)
        | false =>
          exact (later e t read fatal).congr (firstOf_cons_of_recoverable ran fatal)
            (firstOf_cons_of_recoverable read fatal)
  | stopped e t ran fatal reason =>
    exact .stopped e _ (firstOf_cons_of_fatal ran fatal) fatal reason
  | denied e t a t' ran fatal read reason =>
    exact .denied e _ a _ (firstOf_cons_of_fatal ran fatal) fatal (firstOf_cons_of_ok read) reason

theorem lastOf {name : String} {entry : Nat} {furthest : Option Furthest}
    (branch : strict.Restricts lenient b s stops denies) :
    (Rule.firstOf entry [⟨name, strict⟩] furthest).Restricts
      (Rule.firstOf entry [⟨name, lenient⟩] furthest) b s stops denies :=
  branch.firstOf fun _ _ _ _ => .same rfl

theorem choice {branches branches' : List (Branch σ α)}
    (restricts : (Rule.firstOf s.offset branches none).Restricts
      (Rule.firstOf s.offset branches' none) b (s.moveTo (b.pastSpace s.offset)) stops denies) :
    (Rule.choice branches).Restricts (Rule.choice branches') b s stops denies :=
  restricts.congr rfl rfl

end Restricts

end RpcSchema.Rule
