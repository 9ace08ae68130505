import RpcSchema.Proofs.Reading

/-! Two runs side by side. Positions of one buffer are paired with positions of another at which the
same can be read, and two rules run in parallel when they end alike: with the same value at paired
positions, or with the same cause of failure there. Rules that are put together from parallel ones
are parallel. A choice is, because pairs keep the order in which its branches got further. -/
namespace RpcSchema

/-- Positions of two tight buffers where the same tokens stand, with the positions behind these
tokens paired again. -/
structure Buffer.Pairing (b b' : Buffer) (pair : Nat → Nat → Prop) : Prop where
  tight : b.Tight
  tight' : b'.Tight
  start {o o' : Nat} (paired : pair o o') : b.Start o
  start' {o o' : Nat} (paired : pair o o') : b'.Start o'
  get?_eq {o o' : Nat} (paired : pair o o') : b.get? o = b'.get? o'
  wordAt_eq {o o' : Nat} (paired : pair o o') : b.wordAt o = b'.wordAt o'
  holds_eq {o o' : Nat} (paired : pair o o') (t : Token) :
    b.holds o t.chars = b'.holds o' t.chars
  pastToken {o o' : Nat} (paired : pair o o') {t : Token} (found : b.holds o t.chars = true) :
    pair (b.pastToken o t) (b'.pastToken o' t)
  lt_iff {o o' p p' : Nat} (paired : pair o o') (paired' : pair p p') : o < p ↔ o' < p'

theorem Buffer.Pairing.eq_iff {b b' : Buffer} {pair : Nat → Nat → Prop}
    (pairing : b.Pairing b' pair) {o o' p p' : Nat} (paired : pair o o') (paired' : pair p p') :
    o = p ↔ o' = p' := by
  have before := pairing.lt_iff paired paired'
  have behind := pairing.lt_iff paired' paired
  omega

theorem Buffer.Pairing.size_le_iff {b b' : Buffer} {pair : Nat → Nat → Prop}
    (pairing : b.Pairing b' pair) {o o' : Nat} (paired : pair o o') :
    b.size ≤ o ↔ b'.size ≤ o' := by
  rw [← get?_eq_none_iff, ← get?_eq_none_iff, pairing.get?_eq paired]

structure Failure.Alike (pair : Nat → Nat → Prop) (e e' : Failure) : Prop where
  position : pair e.position e'.position
  cause : e.cause = e'.cause

theorem Failure.Alike.isFatal {pair : Nat → Nat → Prop} {e e' : Failure} (alike : e.Alike pair e') :
    e.isFatal = e'.isFatal := by
  rw [Failure.isFatal, alike.cause]
  rfl

namespace State

variable {σ : Type} {pair : Nat → Nat → Prop} {b b' : Buffer} {s s' : State σ}

/-- The same is held, and the classes of both states answer as compiling does. -/
structure Even (s s' : State σ) : Prop where
  held_eq : s.held = s'.held
  sound : s.classes.Sound
  sound' : s'.classes.Sound

structure Beside (pair : Nat → Nat → Prop) (s s' : State σ) : Prop extends Even s s' where
  offset : pair s.offset s'.offset

/-- The states are beside each other once a space has been stepped over. -/
def Near (pair : Nat → Nat → Prop) (b b' : Buffer) (s s' : State σ) : Prop :=
  Beside pair (s.moveTo (b.pastSpace s.offset)) (s'.moveTo (b'.pastSpace s'.offset))

theorem Even.moveTo (even : Even s s') {o o' : Nat} (paired : pair o o') :
    Beside pair (s.moveTo o) (s'.moveTo o') :=
  ⟨⟨even.held_eq, even.sound, even.sound'⟩, paired⟩

theorem Beside.backFrom (beside : Beside pair s s') (o o' : Nat) :
    Beside pair (s.backFrom o) (s'.backFrom o') :=
  ⟨⟨beside.held_eq, beside.sound, beside.sound'⟩, beside.offset⟩

theorem Even.note (even : Even s s') (event event' : Event) :
    Even (s.note event) (s'.note event') :=
  ⟨even.held_eq, even.sound, even.sound'⟩

theorem Beside.note (beside : Beside pair s s') (event event' : Event) :
    Beside pair (s.note event) (s'.note event') :=
  ⟨beside.toEven.note event event', beside.offset⟩

theorem Beside.place (beside : Beside pair s s') : s.At s.offset s.held :=
  ⟨rfl, rfl, beside.sound⟩

theorem Beside.place' (beside : Beside pair s s') : s'.At s'.offset s'.held :=
  ⟨rfl, rfl, beside.sound'⟩

theorem Beside.near (beside : Beside pair s s') (pairing : b.Pairing b' pair) :
    Near pair b b' s s' := by
  refine beside.toEven.moveTo ?_
  rw [(pairing.start beside.offset).pastSpace_eq, (pairing.start' beside.offset).pastSpace_eq]
  exact beside.offset

end State

namespace Rule

variable {σ α β : Type}

/-- The first rule ends in the first buffer as the second rule does in the second one. -/
inductive Parallel (pair : Nat → Nat → Prop) (r r' : Rule σ α) (b b' : Buffer) (s s' : State σ)
    (after : State σ → State σ → Prop) : Prop where
  | ok (a : α) (t t' : State σ) (ran : r b s = (.ok a, t)) (ran' : r' b' s' = (.ok a, t'))
      (met : after t t')
  | error (e e' : Failure) (t t' : State σ) (ran : r b s = (.error e, t))
      (ran' : r' b' s' = (.error e', t')) (alike : e.Alike pair e') (even : t.Even t')

variable {pair : Nat → Nat → Prop} {r r' : Rule σ α} {b b' : Buffer} {s s' t t' : State σ}
  {after middle : State σ → State σ → Prop}

theorem parallel_pure (a : α) (met : after s s') :
    (pure a : Rule σ α).Parallel pair (pure a) b b' s s' after :=
  .ok a s s' rfl rfl met

theorem parallel_fail {p p' : Nat} (cause : Cause) (paired : pair p p') (even : s.Even s') :
    (fail ⟨p, cause⟩ : Rule σ α).Parallel pair (fail ⟨p', cause⟩) b b' s s' after :=
  .error ⟨p, cause⟩ ⟨p', cause⟩ s s' rfl rfl ⟨paired, rfl⟩ even

namespace Parallel

theorem congr {q q' : Rule σ α} (parallel : r.Parallel pair r' b b' t t' after)
    (left : q b s = r b t) (right : q' b' s' = r' b' t') :
    q.Parallel pair q' b b' s s' after := by
  cases parallel with
  | ok a u u' ran ran' met => exact .ok a u u' (left.trans ran) (right.trans ran') met
  | error e e' u u' ran ran' alike even =>
    exact .error e e' u u' (left.trans ran) (right.trans ran') alike even

theorem imp {after' : State σ → State σ → Prop} (parallel : r.Parallel pair r' b b' s s' after)
    (weaker : ∀ t t', after t t' → after' t t') : r.Parallel pair r' b b' s s' after' := by
  cases parallel with
  | ok a t t' ran ran' met => exact .ok a t t' ran ran' (weaker t t' met)
  | error e e' t t' ran ran' alike even => exact .error e e' t t' ran ran' alike even

theorem bind {f f' : α → Rule σ β} (first : r.Parallel pair r' b b' s s' middle)
    (next : ∀ a t t', r b s = (.ok a, t) → r' b' s' = (.ok a, t') → middle t t' →
      (f a).Parallel pair (f' a) b b' t t' after) :
    (r >>= f).Parallel pair (r' >>= f') b b' s s' after := by
  cases first with
  | ok a t t' ran ran' met =>
    exact (next a t t' ran ran' met).congr (bind_of_ok ran) (bind_of_ok ran')
  | error e e' t t' ran ran' alike even =>
    exact .error e e' t t' (bind_of_error ran) (bind_of_error ran') alike even

theorem bind_known {f f' : α → Rule σ β} {a a' : α} (ran : r b s = (.ok a, t))
    (ran' : r' b' s' = (.ok a', t')) (next : (f a).Parallel pair (f' a') b b' t t' after) :
    (r >>= f).Parallel pair (r' >>= f') b b' s s' after :=
  next.congr (bind_of_ok ran) (bind_of_ok ran')

theorem map (g : α → β) (parallel : r.Parallel pair r' b b' s s' after) :
    (g <$> r).Parallel pair (g <$> r') b b' s s' after :=
  parallel.bind fun a _ _ _ _ met => parallel_pure (g a) met

theorem recover (parallel : r.Parallel pair r' b b' s s' (State.Beside pair))
    (beside : s.Beside pair s')
    (back : ∀ e t, r b s = (.error e, t) → t.offset = s.offset)
    (back' : ∀ e t, r' b' s' = (.error e, t) → t.offset = s'.offset) :
    (Rule.recover r).Parallel pair (Rule.recover r') b b' s s' (State.Beside pair) := by
  cases parallel with
  | ok a t t' ran ran' met =>
    exact .ok (some a) t t' (by simp only [Rule.recover, ran]) (by simp only [Rule.recover, ran'])
      met
  | error e e' t t' ran ran' alike even =>
    have same := alike.isFatal
    cases fatal : e.isFatal with
    | true =>
      rw [fatal] at same
      exact .error e e' t t' (by simp only [Rule.recover, ran, fatal, if_true])
        (by simp only [Rule.recover, ran', ← same, if_true]) alike even
    | false =>
      rw [fatal] at same
      have paired : pair t.offset t'.offset := by
        rw [back e t ran, back' e' t' ran']
        exact beside.offset
      exact .ok none t t' (by simp only [Rule.recover, ran, fatal, Bool.false_eq_true, if_false])
        (by simp only [Rule.recover, ran', ← same, Bool.false_eq_true, if_false]) ⟨even, paired⟩

end Parallel

end Rule

/-- The same branches got furthest, with failures that are alike. -/
inductive Furthest.Alike (pair : Nat → Nat → Prop) : Option Furthest → Option Furthest → Prop where
  | untried : Furthest.Alike pair none none
  | tried (e e' : Failure) (names : List String) (alike : e.Alike pair e') :
      Furthest.Alike pair (some ⟨e, names⟩) (some ⟨e', names⟩)

namespace Furthest.Alike

variable {pair : Nat → Nat → Prop} {b b' : Buffer} {furthest furthest' : Option Furthest}

theorem add (pairing : b.Pairing b' pair) (best : Furthest.Alike pair furthest furthest')
    (name : String) {e e' : Failure} (alike : e.Alike pair e') :
    Furthest.Alike pair (some (Furthest.add furthest name e))
      (some (Furthest.add furthest' name e')) := by
  cases best with
  | untried => exact .tried e e' [name] alike
  | tried f f' names before =>
    have shorter := pairing.lt_iff alike.position before.position
    have tied := pairing.eq_iff alike.position before.position
    simp only [Furthest.add, shorter, tied]
    split
    · exact .tried f f' names before
    · split
      · exact .tried f f' (names ++ [name]) before
      · exact .tried e e' [name] alike

theorem verdict (pairing : b.Pairing b' pair) (best : Furthest.Alike pair furthest furthest')
    {entry entry' : Nat} (entered : pair entry entry') :
    (Furthest.verdict b entry furthest).Alike pair (Furthest.verdict b' entry' furthest') := by
  cases best with
  | untried => exact ⟨entered, rfl⟩
  | tried e e' names alike =>
    simp only [Furthest.verdict]
    split
    · exact alike
    · exact ⟨alike.position, by rw [pairing.get?_eq alike.position]⟩

end Furthest.Alike

namespace Rule

variable {σ α : Type} {pair : Nat → Nat → Prop} {b b' : Buffer} {s s' : State σ}
  {branches : List (Branch σ α)}

theorem parallel_firstOf (pairing : b.Pairing b' pair)
    (each : ∀ branch ∈ branches, ∀ s s' : State σ, s.Beside pair s' →
      branch.rule.Parallel pair branch.rule b b' s s' (State.Near pair b b'))
    {entry entry' : Nat} (entered : pair entry entry') {furthest furthest' : Option Furthest}
    (best : Furthest.Alike pair furthest furthest') (beside : s.Beside pair s') :
    (firstOf entry branches furthest).Parallel pair (firstOf entry' branches furthest') b b' s s'
      (State.Beside pair) := by
  induction branches generalizing s s' furthest furthest' with
  | nil =>
    exact .error _ _ _ _ rfl rfl (best.verdict pairing entered)
      (beside.toEven.moveTo entered).toEven
  | cons branch rest ih =>
    have ⟨first, later⟩ := List.forall_mem_cons.1 each
    cases first s s' beside with
    | ok a t t' ran ran' near =>
      exact .ok a _ _ (firstOf_cons_of_ok ran) (firstOf_cons_of_ok ran') near
    | error e e' t t' ran ran' alike even =>
      have same := alike.isFatal
      cases fatal : e.isFatal with
      | true =>
        exact .error e e' _ _ (firstOf_cons_of_fatal ran fatal)
          (firstOf_cons_of_fatal ran' (same.symm.trans fatal)) alike
          (even.moveTo entered).toEven
      | false =>
        have next := (even.note (.branchFailed branch.name e.position)
          (.branchFailed branch.name e'.position)).moveTo beside.offset
        exact (ih later (best.add pairing branch.name alike) next).congr
          (firstOf_cons_of_recoverable ran fatal)
          (firstOf_cons_of_recoverable ran' (same.symm.trans fatal))

theorem parallel_choice (pairing : b.Pairing b' pair)
    (each : ∀ branch ∈ branches, ∀ s s' : State σ, s.Beside pair s' →
      branch.rule.Parallel pair branch.rule b b' s s' (State.Near pair b b'))
    (beside : s.Beside pair s') :
    (choice branches).Parallel pair (choice branches) b b' s s' (State.Beside pair) :=
  (parallel_firstOf pairing each beside.offset .untried (beside.near pairing)).congr rfl rfl

theorem parallel_tryChoice (pairing : b.Pairing b' pair)
    (each : ∀ branch ∈ branches, ∀ s s' : State σ, s.Beside pair s' →
      branch.rule.Parallel pair branch.rule b b' s s' (State.Near pair b b'))
    (beside : s.Beside pair s') :
    (tryChoice branches).Parallel pair (tryChoice branches) b b' s s' (State.Beside pair) :=
  (parallel_choice pairing each beside).recover beside (fun _ _ => choice_error_offset)
    fun _ _ => choice_error_offset

end Rule

end RpcSchema
