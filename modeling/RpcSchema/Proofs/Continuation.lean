import RpcSchema.Proofs.Liberties
import RpcSchema.Proofs.Lockstep

/-! Buffers that go on as another one. From such a position on, a reading ends as the reading of the
other buffer does that starts with the same declarations; only the positions of its failures are
moved. -/
namespace RpcSchema

def Failure.shift (e : Failure) (distance : Nat) : Failure := ⟨distance + e.position, e.cause⟩

theorem Failure.mapError_shift_zero {α : Type} (result : Except Failure α) :
    result.mapError (·.shift 0) = result := by
  cases result with
  | ok a => rfl
  | error e =>
    have same : e.shift 0 = e := by rw [Failure.shift, Nat.zero_add]
    exact congrArg Except.error same

theorem Failure.ok_of_mapError_shift {α : Type} {result : Except Failure α} {distance : Nat} {a : α}
    (moved : result.mapError (·.shift distance) = .ok a) : result = .ok a := by
  cases result with
  | ok found => exact moved
  | error e => cases moved

namespace Buffer

/-- From a position on the buffer goes on as another one. -/
structure Continues (b : Buffer) (q : Nat) (n : Buffer) : Prop where
  le_size : q ≤ b.size
  tail_eq : b.tail q = n.chars.toList

theorem continues_self (b : Buffer) : b.Continues 0 b := ⟨Nat.zero_le _, rfl⟩

namespace Continues

variable {b n : Buffer} {q : Nat}

theorem tail_add_eq (continues : b.Continues q n) (o : Nat) : b.tail (q + o) = n.tail o := by
  rw [tail_add, continues.tail_eq]
  rfl

theorem size_eq (continues : b.Continues q n) : b.size = q + n.size := by
  have length := congrArg List.length continues.tail_eq
  rw [length_tail, Array.length_toList] at length
  have inside := continues.le_size
  change b.size - q = n.size at length
  omega

theorem get?_add_eq (continues : b.Continues q n) (o : Nat) : b.get? (q + o) = n.get? o := by
  rw [← head?_tail, ← head?_tail, continues.tail_add_eq]

theorem pastSpace_add_eq (continues : b.Continues q n) (o : Nat) :
    b.pastSpace (q + o) = q + n.pastSpace o := by
  unfold pastSpace
  rw [continues.get?_add_eq]
  split
  · rfl
  · rfl

theorem pastToken_add_eq (continues : b.Continues q n) (o : Nat) (t : Token) :
    b.pastToken (q + o) t = q + n.pastToken o t := by
  rw [pastToken, pastToken, Nat.add_assoc, continues.pastSpace_add_eq]

theorem holds_add_eq (continues : b.Continues q n) (o : Nat) (literal : List Char) :
    b.holds (q + o) literal = n.holds o literal := by
  rw [Bool.eq_iff_iff, holds_iff_isPrefixOf, holds_iff_isPrefixOf, continues.tail_add_eq]

theorem pairing (continues : b.Continues q n) (tight : b.Tight) (tight' : n.Tight) :
    b.Pairing n fun o o' => n.Start o' ∧ o = q + o' where
  tight := tight
  tight' := tight'
  start := by
    rintro _ o' ⟨start, rfl⟩
    refine ⟨?_, ?_⟩
    · rw [continues.size_eq]
      exact Nat.add_le_add_left start.le_size q
    · rw [continues.get?_add_eq]
      exact start.clear
  start' paired := paired.1
  get?_eq := by
    rintro _ o' ⟨_, rfl⟩
    exact continues.get?_add_eq o'
  wordAt_eq := by
    rintro _ o' ⟨_, rfl⟩
    rw [wordAt, wordAt, continues.tail_add_eq]
  holds_eq := by
    rintro _ o' ⟨_, rfl⟩ t
    exact continues.holds_add_eq o' t.chars
  pastToken := by
    rintro _ o' ⟨_, rfl⟩ t found
    rw [continues.holds_add_eq] at found
    exact ⟨tight'.start_pastToken found, continues.pastToken_add_eq o' t⟩
  lt_iff := by
    rintro _ o' _ p' ⟨_, rfl⟩ ⟨_, rfl⟩
    omega

end Continues

end Buffer

namespace Grammar

open Rule

variable {policy : Policy} {b n : Buffer} {q limit : Nat} {s t : State Declared} {d : Declared}

theorem rounds_of_continues (continues : b.Continues q n) (tight : b.Tight) (tight' : n.Tight)
    (enough : b.size ≤ q + limit) (place : s.At q d) (place' : t.At 0 d) :
    (rounds policy limit b s).1.map (fun _ => (rounds policy limit b s).2.held) =
      (source policy n t).1.mapError (·.shift q) := by
  have pairing := continues.pairing tight tight'
  have first : n.Start t.offset ∧ s.offset = q + t.offset := by
    rw [place.offset_eq, place'.offset_eq]
    exact ⟨tight'.start_zero, rfl⟩
  have held : s.held = t.held := place.held_eq.trans place'.held_eq.symm
  have beside : s.Beside (fun o o' => n.Start o' ∧ o = q + o') t :=
    ⟨⟨held, place.sound, place'.sound⟩, first⟩
  have enough' : b.size ≤ s.offset + limit := by rwa [place.offset_eq]
  have both : (rounds policy limit).Parallel _ (rounds policy (n.size - t.offset)) b n s t _ :=
    parallel_rounds pairing enough' (by omega) beside
  cases both with
  | ok _ u u' ran ran' met =>
    rw [source_of_rounds ran', ran]
    exact congrArg Except.ok met.held_eq
  | error e e' u u' ran ran' alike even =>
    rw [source_of_rounds ran', ran]
    have same : e = e'.shift q := by
      obtain ⟨position, cause⟩ := e
      cases alike.position.2
      cases alike.cause
      rfl
    exact congrArg Except.error same

end Grammar

/-- What has been noted before does not change what is read. -/
theorem readSource_eq_readBuffer (policy : Policy) (source : String) :
    (readSource policy source).1 = (readBuffer policy (Buffer.ofSource source)).1 := by
  have tight := Buffer.tight_ofSource source
  have continues := (Buffer.ofSource source).continues_self
  have fresh := State.at_initial Declared.nothing
  have noted := fresh.note (.normalized (Buffer.ofSource source).size)
  have enough : (Buffer.ofSource source).size ≤ 0 + (Buffer.ofSource source).size := by omega
  have same : _ = (Grammar.source policy _ _).1.mapError _ :=
    Grammar.rounds_of_continues continues tight tight enough noted fresh
  rw [Failure.mapError_shift_zero] at same
  exact (readSource_eq policy source).trans same

end RpcSchema
