import RpcSchema.Proofs.Decisions
import RpcSchema.Proofs.Liberties
import RpcSchema.Proofs.References

/-! Runs by what they read. A run goes phrase by phrase from one position of a buffer to another,
each phrase read where the one before it ends. It comes to the end of the buffer, or it stops before
a declaration that fails; and where phrases are read it goes on behind them. -/
namespace RpcSchema.Grammar

open Rule

inductive Traverses (policy : Policy) (b : Buffer) :
    Nat → Declared → Nat → Declared → Prop where
  | rest (o : Nat) (d : Declared) : Traverses policy b o d o d
  | next {o m o' : Nat} {d d' : Declared} (phrase : Phrase) (declaration : Declaration)
      (reads : ReadsAs policy b o d phrase declaration m)
      (later : Traverses policy b m (d.add declaration) o' d') : Traverses policy b o d o' d'

variable {policy : Policy} {b : Buffer} {limit o o' : Nat} {d d' : Declared} {s : State Declared}

namespace Traverses

theorem le (traverses : Traverses policy b o d o' d') : o ≤ o' := by
  induction traverses with
  | rest => exact Nat.le_refl _
  | next phrase declaration reads later ih => exact Nat.le_trans (Nat.le_of_lt reads.lt) ih

theorem start (traverses : Traverses policy b o d o' d') (tight : b.Tight) (start : b.Start o) :
    b.Start o' := by
  induction traverses with
  | rest => exact start
  | next phrase declaration reads later ih => exact ih (reads.spelled.start tight start)

theorem ended (past : b.size ≤ o) (start : b.Start o) (place : s.At o d) :
    Traverses policy b o d b.size s.held := by
  rw [place.held_eq, Nat.le_antisymm past start.le_size]
  exact .rest o d

theorem methods_kept (traverses : Traverses policy b o d o' d') :
    d.interface.methods <+: d'.interface.methods := by
  induction traverses with
  | rest => exact List.prefix_refl _
  | next phrase declaration reads later ih =>
    rw [Declared.methods_add] at ih
    exact (List.prefix_append _ _).trans ih

end Traverses

/-- The state in which a run comes to the end of the buffer, or before the declaration that
fails. -/
def stopping (policy : Policy) (b : Buffer) : (limit : Nat) → State Declared → State Declared
  | 0, s => s
  | limit + 1, s =>
    if b.size ≤ s.offset then s
    else
      match declaration policy b s with
      | (.error _, _) => s
      | (.ok declaration, s') => stopping policy b limit (s'.note declaration.event)

theorem stopping_of_error {e : Failure} {t : State Declared}
    (ran : declaration policy b s = (.error e, t)) : stopping policy b limit s = s := by
  cases limit with
  | zero => rfl
  | succ limit => simp only [stopping, ran, ite_self]

theorem stopping_of_ok {declaration : Declaration} {s' : State Declared}
    (unread : s.offset < b.size)
    (ran : Grammar.declaration policy b s = (.ok declaration, s')) :
    stopping policy b (limit + 1) s = stopping policy b limit (s'.note declaration.event) := by
  simp only [stopping, ran, Nat.not_le.2 unread, if_false]

/-- A run traverses the buffer, or all that stands before the declaration that fails. -/
theorem traverses_of_rounds (tight : b.Tight) (enough : b.size ≤ o + limit) (start : b.Start o)
    (place : s.At o d) :
    (rounds policy limit).Leads b s
      (fun _ s' => Traverses policy b o d b.size s'.held)
      fun e t => ∃ q d', Traverses policy b o d q d' ∧ (stopping policy b limit s).At q d' ∧
        declaration policy b (stopping policy b limit s) = (.error e, t) := by
  induction limit generalizing s o d with
  | zero => exact leads_pure (.ended enough start place)
  | succ limit ih =>
    by_cases past : b.size ≤ o
    · exact leads_of_ok (rounds_of_ended (place.offset_eq ▸ past)) (.ended past start place)
    · have unread : s.offset < b.size := by
        rw [place.offset_eq]
        exact Nat.lt_of_not_le past
      have picks : (declaration policy).Leads b s (Picks policy b o d) _ :=
        leads_declaration_picks tight start place
      cases ran : declaration policy b s with
      | mk result s' =>
        cases result with
        | error e =>
          refine leads_of_error (rounds_of_error unread ran) ⟨o, d, .rest o d, ?_⟩
          rw [stopping_of_error ran]
          exact ⟨place, ran⟩
        | ok read =>
          obtain ⟨phrase, m, reads, place'⟩ := picks.of_ok ran
          have further : s.offset < s'.offset := by
            rw [place.offset_eq, place'.offset_eq]
            exact reads.lt
          -- A phrase takes characters, so what is unread shrinks with the limit.
          have lower := reads.lt
          have start' := reads.spelled.start tight start
          have later := ih (by omega) start' (place'.note read.event)
          unfold Leads
          rw [rounds_of_ok unread ran further, stopping_of_ok unread ran]
          refine later.imp (fun _ _ => .next phrase read reads) ?_
          rintro e t ⟨q, d', traverses, rest⟩
          exact ⟨q, d', .next phrase read reads traverses, rest⟩

theorem rounds_of_traverses (tight : b.Tight) (enough : b.size ≤ o + limit)
    (traverses : Traverses policy b o d o' d') (start : b.Start o) (place : s.At o d) :
    ∃ limit' s', b.size ≤ o' + limit' ∧ s'.At o' d' ∧
      rounds policy limit b s = rounds policy limit' b s' := by
  induction traverses generalizing s limit with
  | rest o d => exact ⟨limit, s, enough, place, rfl⟩
  | @next o m o' d d' phrase declaration reads later ih =>
    have start' := reads.spelled.start tight start
    have lower := reads.lt
    have inside := start'.le_size
    obtain ⟨read, s₁, ran, rfl, place₁⟩ := (gives_of_readsAs tight reads start place).exists_ok
    cases limit with
    | zero => omega
    | succ limit =>
      have unread : s.offset < b.size := by
        rw [place.offset_eq]
        omega
      have further : s.offset < s₁.offset := by
        rw [place.offset_eq, place₁.offset_eq]
        exact lower
      have enough₁ : b.size ≤ m + limit := by omega
      obtain ⟨limit', s', enough', place', same⟩ := ih enough₁ start' (place₁.note read.event)
      exact ⟨limit', s', enough', place', (rounds_of_ok unread ran further).trans same⟩

theorem traverses_of_source (tight : b.Tight) (place : s.At 0 d)
    (read : (source policy b s).1 = .ok d') : Traverses policy b 0 d b.size d' := by
  have enough : b.size ≤ 0 + (b.size - s.offset) := by
    rw [place.offset_eq]
    omega
  cases ran : rounds policy (b.size - s.offset) b s with
  | mk result s' =>
    rw [source_of_rounds ran] at read
    cases result with
    | error e => cases read
    | ok _ =>
      cases read
      exact (traverses_of_rounds tight enough tight.start_zero place).of_ok ran

theorem source_of_traverses (tight : b.Tight) (traverses : Traverses policy b 0 d b.size d')
    (place : s.At 0 d) : (source policy b s).1 = .ok d' := by
  have enough : b.size ≤ 0 + (b.size - s.offset) := by
    rw [place.offset_eq]
    omega
  obtain ⟨limit', s', _, place', same⟩ :=
    rounds_of_traverses tight enough traverses tight.start_zero place
  have ended : rounds policy limit' b s' = (.ok (), s') :=
    rounds_of_ended (Nat.le_of_eq place'.offset_eq.symm)
  rw [source_of_rounds (same.trans ended), place'.held_eq]
  rfl

end RpcSchema.Grammar
