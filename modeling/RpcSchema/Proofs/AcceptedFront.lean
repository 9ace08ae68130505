import RpcSchema.Proofs.Beginning

/-! What stands before a failure. A source that is refused has been read up to the declaration that
fails. What stands before that declaration is accepted on its own, with all that had been declared
when it failed. -/
namespace RpcSchema

namespace Token

theorem isName_of_mem {t : Token} {c : Char} (member : c ∈ t.chars) (named : isNameChar c = true) :
    t.isName = true := by
  cases t with
  | word _ | keyword _ => rfl
  | sign s =>
    have signs : (Token.sign s).chars.all (fun c => !isNameChar c) = true := by cases s <;> decide
    have other := List.all_eq_true.1 signs c member
    rw [named] at other
    cases other

end Token

theorem Phrase.exists_last (phrase : Phrase) :
    ∃ init last, phrase.tokens = init ++ [last] ∧ (last.isName = true → last.isWord = true) := by
  cases phrase with
  | message m => exact ⟨_, _, rfl, fun name => by cases name⟩
  | method name q r => exact ⟨[_, _, _, _, _, _, _], _, rfl, fun name => by cases name⟩
  | bare w => exact ⟨[], _, rfl, fun _ => rfl⟩

theorem TightText.take {text : List Char} {k : Nat} (tight : TightText text)
    (last : text[k - 1]? ≠ some ' ') : TightText (text.take k) where
  first space := by
    rw [List.getElem?_take] at space
    split at space
    · exact tight.first space
    · cases space
  next i space := by
    rw [List.getElem?_take] at space
    split at space
    · next inside =>
      obtain ⟨c, here, solid⟩ := tight.next i space
      have more : i + 1 < k := by
        apply Nat.lt_of_not_le
        intro final
        have same : k - 1 = i := by omega
        exact last (same ▸ space)
      exact ⟨c, by rw [List.getElem?_take, if_pos more]; exact here, solid⟩
    · cases space

namespace Buffer

/-- The end of the text in front of a position, without the space that may stand there. -/
def edge (b : Buffer) (q : Nat) : Nat := if b.get? (q - 1) = some ' ' then q - 1 else q

/-- The characters up to a position, but for a space in front of it. -/
def upTo (b : Buffer) (q : Nat) : Buffer := ⟨(b.chars.toList.take (b.edge q)).toArray⟩

variable {b : Buffer} {o q : Nat} {t : Token}

example : ((ofText "a b").upTo 2).chars.toList = ['a'] := by decide

theorem edge_le (b : Buffer) (q : Nat) : b.edge q ≤ q := by
  unfold edge
  split <;> omega

theorem size_upTo (inside : q ≤ b.size) : (b.upTo q).size = b.edge q := by
  have before := Nat.le_trans (b.edge_le q) inside
  rw [size, upTo, List.size_toArray, List.length_take, Array.length_toList]
  exact Nat.min_eq_left before

theorem tight_upTo (tight : b.Tight) (q : Nat) : (b.upTo q).Tight := by
  refine TightText.take tight ?_
  rw [← get?_eq_getElem?]
  unfold edge
  split
  · next space =>
    intro other
    obtain ⟨c, next, solid⟩ := tight.get?_succ other
    by_cases first : q - 1 = 0
    · rw [first] at space
      exact tight.start_zero.clear space
    · rw [Nat.sub_add_cancel (by omega), space] at next
      cases next
      exact solid rfl
  · assumption

theorem pastSpace_edge (tight : b.Tight) (start : b.Start q) : b.pastSpace (b.edge q) = q := by
  unfold edge
  split
  · next space =>
    have some : q ≠ 0 := by
      rintro rfl
      exact tight.start_zero.clear space
    rw [pastSpace, if_pos space]
    omega
  · exact start.pastSpace_eq

theorem edge_pastToken (found : b.holds o t.chars = true) :
    b.edge (b.pastToken o t) = o + t.chars.length := by
  have long := List.length_pos_iff.2 t.chars_ne_nil
  by_cases space : b.get? (o + t.chars.length) = some ' '
  · rw [edge, pastToken, pastSpace, if_pos space, Nat.add_sub_cancel, if_pos space]
  · rw [edge, pastToken, pastSpace, if_neg space, if_neg]
    intro last
    have member := mem_chars_of_holds found (by omega) (by omega) last
    exact absurd isBlank_space (by simp [(t.plain ' ' member).1])

theorem begins_upTo (tight : b.Tight) (has : b.Has Token.isWord o t)
    (last : t.isName = true → t.isWord = true) : b.Begins (b.upTo (b.pastToken o t)) where
  tight := tight
  tight' := tight_upTo tight _
  front := List.take_prefix _ _
  apart c here named := by
    have start := tight.start_pastToken has.holds
    have long := List.length_pos_iff.2 t.chars_ne_nil
    have size := (size_upTo start.le_size).trans (edge_pastToken has.holds)
    rw [size] at here ⊢
    have kept : b.get? (o + t.chars.length - 1) = some c := by
      rw [get?_eq_getElem?, upTo, List.toList_toArray, List.getElem?_take] at here
      split at here
      · rwa [get?_eq_getElem?]
      · cases here
    have member := mem_chars_of_holds has.holds (by omega) (by omega) kept
    exact has.ends (last (Token.isName_of_mem member named))

theorem begins_nothing (tight : b.Tight) : b.Begins (b.upTo 0) where
  tight := tight
  tight' := tight_upTo tight 0
  front := List.take_prefix _ _
  apart c here _ := by
    have inside := lt_size_of_get? here
    have size := (size_upTo (Nat.zero_le b.size)).trans (Nat.le_zero.1 (b.edge_le 0))
    omega

end Buffer

namespace Grammar

variable {policy : Policy} {b : Buffer} {o o' : Nat} {d d' : Declared}

theorem Traverses.exists_last (traverses : Traverses policy b o d o' d') :
    o = o' ∨ ∃ m t, b.Has Token.isWord m t ∧ (t.isName = true → t.isWord = true) ∧
      o' = b.pastToken m t := by
  induction traverses with
  | rest => exact .inl rfl
  | next phrase declaration reads later ih =>
    rcases ih with rfl | last
    · obtain ⟨init, t, tokens, final⟩ := phrase.exists_last
      have spelled := reads.spelled
      rw [tokens] at spelled
      obtain ⟨m, _, has, same⟩ := (Buffer.spells_append _ _).1 spelled
      exact .inr ⟨m, t, has, final, same.symm⟩
    · exact .inr last

theorem Traverses.begins_upTo (traverses : Traverses policy b 0 d o' d') (tight : b.Tight) :
    b.Begins (b.upTo o') := by
  rcases traverses.exists_last with rfl | ⟨m, t, has, last, rfl⟩
  · exact Buffer.begins_nothing tight
  · exact Buffer.begins_upTo tight has last

theorem readBuffer_upTo (tight : b.Tight) (traverses : Traverses policy b 0 .nothing o' d') :
    (readBuffer policy (b.upTo o')).1 = .ok d' := by
  have begins := traverses.begins_upTo tight
  have start := traverses.start tight tight.start_zero
  have final : b.pastSpace (b.upTo o').size = o' := by
    rw [Buffer.size_upTo start.le_size, Buffer.pastSpace_edge tight start]
  obtain ⟨p, marks, front⟩ := traverses_front begins begins.marks_zero traverses
    (Nat.le_of_eq final.symm)
  cases marks.of_pastSpace final
  exact source_of_traverses begins.tight' front (State.at_initial _)

end Grammar

theorem sourceRounds_of_error {policy : Policy} {source : String} {e : Failure}
    {t : State Declared} (failed : readSource policy source = (.error e, t)) :
    sourceRounds policy source = (.error e, t) := by
  cases ran : sourceRounds policy source with
  | mk result s' =>
    cases result with
    | error e' =>
      have same : readSource policy source = (.error e', s') :=
        (Rule.bind_of_ok rfl).trans (Rule.bind_of_error ran)
      cases same.symm.trans failed
      rfl
    | ok _ =>
      have read := readSource_eq policy source
      rw [failed, ran] at read
      cases read

/-- The declaration for which a source is refused starts at the position of the failure or before
it. The text in front of it is accepted, and declares all that had been declared when the failure
was met. -/
theorem accepted_before_failure {policy : Policy} {source : String} {e : Failure}
    {t : State Declared} (failed : readSource policy source = (.error e, t)) :
    let b := Buffer.ofSource source
    let last := Grammar.stopping policy b b.size ((State.initial .nothing).note (.normalized b.size))
    Grammar.declaration policy b last = (.error e, t) ∧ last.offset ≤ e.position ∧
      (∀ rules found, e.cause = .noBranch rules found → last.offset = e.position) ∧
      (readBuffer policy (b.upTo last.offset)).1 = .ok t.held := by
  intro b last
  have tight : b.Tight := Buffer.tight_ofSource source
  have place := (State.at_initial Declared.nothing).note (.normalized b.size)
  have enough : b.size ≤ 0 + b.size := Nat.le_of_eq (Nat.zero_add _).symm
  obtain ⟨q, d, traverses, stopped, fails⟩ :=
    (Grammar.traverses_of_rounds tight enough tight.start_zero place).of_error
      (sourceRounds_of_error failed)
  have start := traverses.start tight tight.start_zero
  have bounds := (Grammar.leads_declaration_picks tight start stopped).of_error fails
  have held : t.held = d :=
    ((Grammar.commits_declaration policy b last).of_error fails).trans stopped.held_eq
  have offset : last.offset = q := stopped.offset_eq
  rw [offset, held]
  refine ⟨fails, bounds.1, fun rules found noBranch => ?_, Grammar.readBuffer_upTo tight traverses⟩
  -- Not being fatal, such a failure lies where its declaration starts.
  have recovers : e.isFatal = false := by rw [Failure.isFatal, noBranch]; rfl
  exact (bounds.2 recovers).symm

/-- The method that fails starts behind a space, which the accepted text leaves out. -/
theorem accepted_before_failure_of_undeclared_response :
    let source := "message A\x7b\x7d\nmethod m(A)->B;"
    let b := Buffer.ofSource source
    let last := Grammar.stopping .strict b b.size ((State.initial .nothing).note (.normalized b.size))
    ∃ e t, readSource .strict source = (.error e, t) ∧
      Grammar.declaration .strict b last = (.error e, t) ∧ last.offset ≤ e.position ∧
      (∀ rules found, e.cause = .noBranch rules found → last.offset = e.position) ∧
      (readBuffer .strict (b.upTo last.offset)).1 = .ok t.held := by
  intro source b last
  have refused : (readSource .strict source).1.isOk = false := by decide +kernel
  match failed : readSource .strict source with
  | (.ok d, t) =>
    rw [failed] at refused
    cases refused
  | (.error e, t) => exact ⟨e, t, rfl, accepted_before_failure failed⟩

end RpcSchema
