import RpcSchema.Proofs.Beginning
import RpcSchema.Proofs.Continuation

/-! Buffers one behind the other. Where the first one closes, nothing that is tried in it goes on
into the second. So they are read together as the second one is read with what the first one
declares. -/
namespace RpcSchema

namespace TightText

variable {text text' : List Char}

theorem next_append (next : ∀ i, text[i]? = some ' ' → ∃ c, text[i + 1]? = some c ∧ c ≠ ' ')
    (next' : ∀ i, text'[i]? = some ' ' → ∃ c, text'[i + 1]? = some c ∧ c ≠ ' ') (i : Nat)
    (space : (text ++ text')[i]? = some ' ') :
    ∃ c, (text ++ text')[i + 1]? = some c ∧ c ≠ ' ' := by
  by_cases inside : i < text.length
  · rw [List.getElem?_append_left inside] at space
    obtain ⟨c, here, solid⟩ := next i space
    have more := (List.getElem?_eq_some_iff.1 here).1
    exact ⟨c, by rw [List.getElem?_append_left more]; exact here, solid⟩
  · rw [List.getElem?_append_right (by omega)] at space
    obtain ⟨c, here, solid⟩ := next' _ space
    refine ⟨c, ?_, solid⟩
    rw [List.getElem?_append_right (by omega), Nat.sub_add_comm (by omega)]
    exact here

theorem append (tight : TightText text) (tight' : TightText text') : TightText (text ++ text') where
  first := by
    cases text with
    | nil => exact tight'.first
    | cons c rest => exact tight.first
  next := next_append tight.next tight'.next

theorem append_space (tight : TightText text) (tight' : TightText text') (some : text ≠ [])
    (some' : text' ≠ []) : TightText (text ++ ' ' :: text') where
  first := by
    obtain ⟨c, rest, rfl⟩ := List.exists_cons_of_ne_nil some
    exact tight.first
  next := by
    refine next_append tight.next fun i space => ?_
    cases i with
    | zero =>
      obtain ⟨c, rest, rfl⟩ := List.exists_cons_of_ne_nil some'
      exact ⟨c, rfl, fun same => tight'.first (congrArg Option.some same)⟩
    | succ i => exact tight'.next i space

end TightText

namespace Buffer

def join (n : Buffer) (between : List Char) (n' : Buffer) : Buffer :=
  ⟨(n.chars.toList ++ (between ++ n'.chars.toList)).toArray⟩

/-- Nothing stands between two buffers, or a single space if neither is empty. -/
inductive Seam (n n' : Buffer) : List Char → Prop where
  | close : Seam n n' []
  | spaced (some : n.size ≠ 0) (some' : n'.size ≠ 0) : Seam n n' [' ']

variable {n n' : Buffer} {between : List Char}

theorem Seam.tight (seam : Seam n n' between) (tight : n.Tight) (tight' : n'.Tight) :
    (n.join between n').Tight := by
  unfold Tight join
  cases seam with
  | close => simpa using TightText.append tight tight'
  | spaced some some' =>
    have here : n.chars.toList ≠ [] := fun empty => some (congrArg List.length empty)
    have there : n'.chars.toList ≠ [] := fun empty => some' (congrArg List.length empty)
    simpa using TightText.append_space tight tight' here there

theorem continues_join (n : Buffer) (between : List Char) (n' : Buffer) :
    (n.join between n').Continues (n.size + between.length) n' where
  le_size := by
    simp only [size, join, List.size_toArray, List.length_append, Array.length_toList]
    omega
  tail_eq := by
    have size : n.size + between.length = (n.chars.toList ++ between).length := by simp [size]
    rw [tail, join, size, ← List.append_assoc, List.drop_left]

theorem tail_join (n : Buffer) (between : List Char) (n' : Buffer) :
    (n.join between n').tail n.size = between ++ n'.chars.toList := by
  have size : n.size = n.chars.toList.length := rfl
  rw [tail, join, size, List.drop_left]

theorem Seam.pastSpace_eq (seam : Seam n n' between) (tight' : n'.Tight) :
    (n.join between n').pastSpace n.size = n.size + between.length := by
  unfold pastSpace
  rw [← head?_tail, tail_join]
  cases seam with
  | close =>
    have clear : n'.chars.toList.head? ≠ some ' ' := by
      rw [List.head?_eq_getElem?]
      exact tight'.first
    rw [List.nil_append, if_neg clear]
    rfl
  | spaced => rfl

theorem begins_join (seam : Seam n n' between) (tight : n.Tight) (tight' : n'.Tight)
    (closed : n.Closed) : (n.join between n').Begins n where
  tight := seam.tight tight tight'
  tight' := tight
  front := List.prefix_append _ _
  apart c last named := by
    rcases closed with empty | brace | semicolon
    · have inside := lt_size_of_get? last
      omega
    · cases brace.symm.trans last
      cases named
    · cases semicolon.symm.trans last
      cases named

end Buffer

/-- Behind a buffer that closes, another one is read as on its own with what the first one declares.
The positions of its failures are moved, and the methods of the first one are kept in front. -/
theorem reading_joined_buffers {policy : Policy} {n n' : Buffer} {between : List Char}
    {d : Declared} (tight : n.Tight) (tight' : n'.Tight) (closed : n.Closed)
    (seam : Buffer.Seam n n' between) (read : (readBuffer policy n).1 = .ok d) :
    let joined := (readBuffer policy (n.join between n')).1
    let later := (Grammar.source policy n' (.initial d)).1
    joined = later.mapError (·.shift (n.size + between.length)) ∧
      ∀ d', joined = .ok d' → d.interface.methods <+: d'.interface.methods := by
  intro joined later
  have begins := Buffer.begins_join seam tight tight' closed
  -- The first buffer is read in the joined one as alone, up to where the second one starts.
  have first := Grammar.traverses_of_source tight (State.at_initial _) read
  obtain ⟨q, marks, traverses⟩ := Grammar.traverses_of_front begins closed begins.marks_zero first
  have reached : q = n.size + between.length := by
    rw [marks.of_size, seam.pastSpace_eq tight']
  subst reached
  obtain ⟨limit, s, enough, place, same⟩ := Grammar.rounds_of_traverses begins.tight
    (Nat.le_of_eq (Nat.zero_add _).symm) traverses begins.tight.start_zero (State.at_initial _)
  have equal : joined = later.mapError (·.shift (n.size + between.length)) := by
    rw [← Grammar.rounds_of_continues (n.continues_join between n') begins.tight tight' enough place
      (State.at_initial d), ← same]
    exact Grammar.source_of_rounds rfl
  refine ⟨equal, fun d' accepted => ?_⟩
  have alone : later = .ok d' := Failure.ok_of_mapError_shift (equal.symm.trans accepted)
  exact (Grammar.traverses_of_source tight' (State.at_initial d) alone).methods_kept

/-- The method of the second buffer names the message of the first one, and another one that is not
declared and is refused nineteen positions further behind. -/
theorem reading_joined_buffers_of_undeclared_response :
    let n := Buffer.ofSource "method\nmessage A\x7b\x7d"
    let n' := Buffer.ofSource "message method m(A)->B;"
    let d : Declared := ⟨.empty, OrderedMap.empty.insert "A" .empty⟩
    n.Tight ∧ n'.Tight ∧ n.Closed ∧ Buffer.Seam n n' [' '] ∧ (readBuffer .strict n).1 = .ok d ∧
      let joined := (readBuffer .strict (n.join [' '] n')).1
      let later := (Grammar.source .strict n' (.initial d)).1
      joined = later.mapError (·.shift (n.size + [' '].length)) ∧
        ∀ d', joined = .ok d' → d.interface.methods <+: d'.interface.methods := by
  intro n n' d
  have tight : n.Tight := Buffer.tight_ofSource _
  have tight' : n'.Tight := Buffer.tight_ofSource _
  have closed : n.Closed := .inr (.inl (by decide +kernel))
  have seam : Buffer.Seam n n' [' '] := .spaced (by decide +kernel) (by decide +kernel)
  have read : (readBuffer .strict n).1 = .ok d := by
    have given : (readBuffer .strict n).1.toOption = some d := by decide +kernel
    cases result : (readBuffer .strict n).1 with
    | ok found =>
      rw [result] at given
      exact congrArg Except.ok (Option.some.inj given)
    | error e =>
      rw [result] at given
      cases given
  exact ⟨tight, tight', closed, seam, read, reading_joined_buffers tight tight' closed seam read⟩

end RpcSchema
