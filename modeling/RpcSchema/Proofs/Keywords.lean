import RpcSchema.Proofs.Text

/-! What stands where a keyword is looked for. The literals are tried as they are listed, behind one
space, and the first that the unread text begins with is read, however long another one is. When
there is none the offset is back where it was, and a choice may always recover from the failure. -/
namespace RpcSchema.Rule

variable {σ : Type} {literals : List String} {b : Buffer} {s : State σ}

theorem keyword_of_ended (literals : List String) (ended : b.size ≤ b.pastSpace s.offset) :
    keyword literals b s =
      (.error ⟨b.pastSpace s.offset, .endOfInput ("one of " ++ ", ".intercalate literals)⟩,
        s.backFrom (b.pastSpace s.offset)) :=
  if_pos ended

theorem find?_holds_of_first {q : Nat} {before after : List String} {literal : String}
    (listed : literals = before ++ literal :: after) (stands : literal.toList <+: b.tail q)
    (passed : ∀ earlier ∈ before, ¬earlier.toList <+: b.tail q) :
    (literals.find? fun literal => b.holds q literal.toList) = some literal := by
  refine List.find?_eq_some_iff_append.2
    ⟨(b.holds_iff_isPrefixOf q _).2 stands, before, after, listed, fun earlier member => ?_⟩
  rw [Bool.not_eq_true', Bool.eq_false_iff, ne_eq, b.holds_iff_isPrefixOf]
  exact passed earlier member

theorem keyword_of_first {before after : List String} {literal : String}
    (unread : b.pastSpace s.offset < b.size) (listed : literals = before ++ literal :: after)
    (stands : literal.toList <+: b.tail (b.pastSpace s.offset))
    (passed : ∀ earlier ∈ before, ¬earlier.toList <+: b.tail (b.pastSpace s.offset)) :
    keyword literals b s =
      (.ok literal, s.moveTo (b.pastSpace (b.pastSpace s.offset + literal.length))) := by
  have found := find?_holds_of_first listed stands passed
  simp only [keyword, if_neg (Nat.not_le.2 unread), found]

theorem keyword_of_none (unread : b.pastSpace s.offset < b.size)
    (absent : ∀ literal ∈ literals, ¬literal.toList <+: b.tail (b.pastSpace s.offset)) :
    keyword literals b s =
      (.error ⟨b.pastSpace s.offset, .wrongKeyword literals⟩,
        s.backFrom (b.pastSpace s.offset)) := by
  have found : (literals.find? fun literal =>
      b.holds (b.pastSpace s.offset) literal.toList) = none := by
    refine List.find?_eq_none.2 fun literal member => ?_
    rw [b.holds_iff_isPrefixOf]
    exact absent literal member
  simp only [keyword, if_neg (Nat.not_le.2 unread), found]

/-- No failure of a keyword is fatal, so that dropping it is recovering from it. -/
theorem tryKeyword_eq_recover (literals : List String) (b : Buffer) (s : State σ) :
    tryKeyword literals b s = recover (keyword literals) b s := by
  unfold tryKeyword recover
  cases ran : keyword literals b s with
  | mk result s' =>
    cases result with
    | ok literal => rfl
    | error e =>
      have recoverable := (keyword_error ran).2
      simp only [recoverable, Bool.false_eq_true, if_false]

theorem tryKeyword_of_ok {literal : String} {s' : State σ}
    (ran : keyword literals b s = (.ok literal, s')) :
    tryKeyword literals b s = (.ok (some literal), s') := by
  rw [tryKeyword, ran]

theorem tryKeyword_of_error {e : Failure} {s' : State σ}
    (ran : keyword literals b s = (.error e, s')) : tryKeyword literals b s = (.ok none, s') := by
  rw [tryKeyword, ran]

/-- Behind the space that may stand at the offset, the first literal of the list that stands there
is read, even when a later one is longer. When none does the failure names them all, and nothing but
what the offset has reached is changed. -/
theorem keyword_reads_first_listed (literals : List String) (b : Buffer) (s : State σ) :
    let o := s.offset
    let q := if b.get? o = some ' ' then o + 1 else o
    (b.size ≤ q →
      keyword literals b s =
        (.error ⟨q, .endOfInput ("one of " ++ ", ".intercalate literals)⟩, s.backFrom q) ∧
      tryKeyword literals b s = (.ok none, s.backFrom q)) ∧
    (q < b.size → ∀ before literal after, literals = before ++ literal :: after →
      literal.toList <+: b.tail q → (∀ earlier ∈ before, ¬earlier.toList <+: b.tail q) →
      let reached := q + literal.length
      let s' := s.moveTo (if b.get? reached = some ' ' then reached + 1 else reached)
      b.tail q = literal.toList ++ b.tail reached ∧ s'.offset ≤ b.size ∧
      keyword literals b s = (.ok literal, s') ∧
      tryKeyword literals b s = (.ok (some literal), s')) ∧
    (q < b.size → (∀ literal ∈ literals, ¬literal.toList <+: b.tail q) →
      keyword literals b s = (.error ⟨q, .wrongKeyword literals⟩, s.backFrom q) ∧
      tryKeyword literals b s = (.ok none, s.backFrom q)) ∧
    (∀ e s', keyword literals b s = (.error e, s') →
      e.isFatal = false ∧ s'.offset = o ∧ s'.classes = s.classes ∧ s'.journal = s.journal ∧
        s'.held = s.held) ∧
    tryKeyword literals b s = recover (keyword literals) b s := by
  intro o q
  refine ⟨fun ended => ?_, fun unread before literal after listed stands passed => ?_,
    fun unread absent => ?_, fun e s' ran => ?_, tryKeyword_eq_recover ..⟩
  · have ran := keyword_of_ended literals ended
    exact ⟨ran, tryKeyword_of_error ran⟩
  · intro reached s'
    have ran := keyword_of_first unread listed stands passed
    have found := (b.holds_iff_isPrefixOf q _).2 stands
    have inside : reached ≤ b.size := Buffer.size_le_of_holds found (Nat.le_of_lt unread)
    exact ⟨Buffer.tail_of_holds found, b.pastSpace_le inside, ran, tryKeyword_of_ok ran⟩
  · have ran := keyword_of_none unread absent
    exact ⟨ran, tryKeyword_of_error ran⟩
  · obtain ⟨rfl, recoverable⟩ := keyword_error ran
    exact ⟨recoverable, rfl, rfl, rfl, rfl⟩

/-- Of three literals the first runs past the end and the third is the longer of the two that stand
there. Two of the characters that are read take more than one byte. -/
theorem keyword_reads_first_listed_of_shorter :
    let literals := ["→é and more", "→é", "→é x"]
    let b := Buffer.ofText "a →é x"
    let s : State Unit := (State.initial ()).moveTo 1
    2 < b.size ∧ "→é".toList <+: b.tail 2 ∧ "→é x".toList <+: b.tail 2 ∧
      keyword literals b s = (.ok "→é", s.moveTo 5) ∧
      tryKeyword ["→é and more", ""] b s = (.ok (some ""), s.moveTo 2) ∧
      keyword ["→é and more"] b s =
        (.error ⟨2, .wrongKeyword ["→é and more"]⟩, s.backFrom 2) ∧
      tryKeyword literals b (s.moveTo 6) = (.ok none, (s.moveTo 6).backFrom 6) := by
  intro literals b s
  have unread : 2 < b.size := by decide +kernel
  have short : "→é".toList <+: b.tail 2 := by decide +kernel
  have long : "→é x".toList <+: b.tail 2 := by decide +kernel
  have none : ∀ earlier ∈ ["→é and more"], ¬earlier.toList <+: b.tail 2 := by decide +kernel
  have empty : "".toList <+: b.tail 2 := by decide +kernel
  have listed := (keyword_reads_first_listed literals b s).2.1 unread
    ["→é and more"] "→é" ["→é x"] rfl short none
  have tried := (keyword_reads_first_listed ["→é and more", ""] b s).2.1 unread
    ["→é and more"] "" [] rfl empty none
  have refused := (keyword_reads_first_listed ["→é and more"] b s).2.2.1 unread none
  have ended := (keyword_reads_first_listed literals b (s.moveTo 6)).1 (by decide +kernel)
  exact ⟨unread, short, long, listed.2.2.1, tried.2.2.2, refused.1, ended.2⟩

end RpcSchema.Rule
