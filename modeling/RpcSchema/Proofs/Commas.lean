import RpcSchema.Proofs.Follow

/-! Commas that a closing brace follows. In phrases without a comma behind their last field every
comma has a name behind it. -/
namespace RpcSchema

theorem Token.comma_not_mem {t : Token} (other : t ≠ .sign .comma) : ',' ∉ t.chars := by
  cases t with
  | word w => exact fun member => absurd (w.named _ member) (by decide)
  | keyword k => cases k <;> decide
  | sign s =>
    cases s with
    | comma => exact absurd rfl other
    | _ => decide

theorem Field.comma_not_mem (field : Field) : .sign .comma ∉ field.tokens := by
  simp [Field.tokens]

namespace Buffer

/-- A comma with a closing brace directly behind it or behind one space. -/
def ClosedComma (b : Buffer) (q : Nat) : Prop :=
  b.get? q = some ',' ∧ b.get? (b.pastSpace (q + 1)) = some '\x7d'

instance (b : Buffer) (q : Nat) : Decidable (b.ClosedComma q) :=
  inferInstanceAs (Decidable (_ ∧ _))

/-- No comma from one position up to another is closed. -/
def OpenCommas (b : Buffer) (o o' : Nat) : Prop := ∀ q, o ≤ q → q < o' → ¬b.ClosedComma q

variable {b : Buffer} {o m o' : Nat} {greedy : Token → Bool} {t : Token}

theorem openCommas_self (b : Buffer) (o : Nat) : b.OpenCommas o o := by
  intro q lower upper
  omega

theorem OpenCommas.trans (first : b.OpenCommas o m) (second : b.OpenCommas m o') :
    b.OpenCommas o o' := by
  intro q lower upper
  by_cases before : q < m
  · exact first q lower before
  · exact second q (by omega) upper

theorem mem_chars_of_holds {q : Nat} {c : Char} (found : b.holds o t.chars = true)
    (lower : o ≤ q) (upper : q < o + t.chars.length) (here : b.get? q = some c) :
    c ∈ t.chars := by
  obtain ⟨i, rfl⟩ := Nat.exists_eq_add_of_le lower
  rw [← head?_tail, tail_add, tail_of_holds found, List.drop_append_of_le_length (by omega),
    List.drop_eq_getElem_cons (by omega)] at here
  cases here
  exact List.getElem_mem _

theorem mem_chars_of_lt_pastToken {q : Nat} {c : Char} (found : b.holds o t.chars = true)
    (lower : o ≤ q) (upper : q < b.pastToken o t) (here : b.get? q = some c) (solid : c ≠ ' ') :
    c ∈ t.chars := by
  by_cases inside : q < o + t.chars.length
  · exact mem_chars_of_holds found lower inside here
  · unfold pastToken pastSpace at upper
    split at upper
    · next space =>
      have last : q = o + t.chars.length := by omega
      rw [last, space] at here
      cases here
      exact absurd rfl solid
    · omega

theorem openCommas_token (found : b.holds o t.chars = true) (other : t ≠ .sign .comma) :
    b.OpenCommas o (b.pastToken o t) := by
  intro q lower upper closed
  exact Token.comma_not_mem other
    (mem_chars_of_lt_pastToken found lower upper closed.1 (by decide))

theorem openCommas_comma (next : b.get? (b.pastSpace (o + 1)) ≠ some '\x7d') :
    b.OpenCommas o (b.pastSpace (o + 1)) := by
  intro q lower upper closed
  by_cases first : q = o
  · exact next (first ▸ closed.2)
  · unfold pastSpace at upper
    split at upper
    · next space =>
      have last : q = o + 1 := by omega
      rw [ClosedComma, last, space] at closed
      cases closed.1
    · omega

theorem openCommas_of_spells {ts : List Token} (spelled : b.Spells greedy o ts o')
    (other : .sign .comma ∉ ts) : b.OpenCommas o o' := by
  induction ts generalizing o with
  | nil =>
    cases spelled
    exact b.openCommas_self _
  | cons t rest ih =>
    simp only [List.mem_cons, not_or] at other
    exact (openCommas_token spelled.1.holds (Ne.symm other.1)).trans (ih spelled.2 other.2)

theorem get?_ne_brace_of_word {w : Word} (found : b.holds o (Token.word w).chars = true) :
    b.get? o ≠ some '\x7d' := by
  intro brace
  exact absurd (noSign_of_holds rfl found _ brace) (by decide)

theorem openCommas_fields {fs : List Field}
    (spelled : b.Spells greedy o (fieldsTokens false fs) o') :
    b.OpenCommas o o' := by
  induction fs generalizing o with
  | nil =>
    cases spelled
    exact b.openCommas_self _
  | cons field rest ih =>
    obtain ⟨m, here, spelled⟩ := (spells_append _ _).1 spelled
    have first := openCommas_of_spells here field.comma_not_mem
    cases rest with
    | nil =>
      cases spelled
      exact first
    | cons next later =>
      obtain ⟨hasComma, spelled⟩ := spelled
      have name := get?_ne_brace_of_word spelled.1.holds
      exact first.trans ((openCommas_comma name).trans (ih spelled))

theorem openCommas_phrase {phrase : Phrase} (spelled : b.Spells greedy o phrase.tokens o')
    (last : ∀ m, phrase = .message m → m.comma = false) : b.OpenCommas o o' := by
  cases phrase with
  | message m =>
    obtain ⟨o₁, head, closing⟩ := (spells_append _ _).1 spelled
    obtain ⟨o₂, opening, fields⟩ := (spells_append _ _).1 head
    rw [last m rfl] at fields
    have first := openCommas_of_spells opening (by simp)
    have final := openCommas_of_spells closing (by simp)
    exact first.trans ((openCommas_fields fields).trans final)
  | method name request response =>
    exact openCommas_of_spells spelled (by simp [Phrase.tokens])
  | bare token => exact openCommas_of_spells spelled (by simp [Phrase.tokens])

theorem openCommas_script {script : List Phrase}
    (spelled : b.Spells greedy o (scriptTokens script) o')
    (last : ∀ m, .message m ∈ script → m.comma = false) : b.OpenCommas o o' := by
  induction script generalizing o with
  | nil =>
    cases spelled
    exact b.openCommas_self _
  | cons phrase rest ih =>
    obtain ⟨m, here, spelled⟩ := (spells_append _ _).1 spelled
    have first := openCommas_phrase here fun p same => last p (same ▸ List.mem_cons_self)
    exact first.trans (ih spelled fun p member => last p (List.mem_cons_of_mem _ member))

/-- The failure at the brace that follows the first closed comma from a position on. -/
def Dangles (b : Buffer) (o : Nat) (e : Failure) : Prop :=
  ∃ q, o ≤ q ∧ b.ClosedComma q ∧ b.OpenCommas o q ∧
    e = ⟨b.pastSpace (q + 1), .danglingComma (some '\x7d')⟩

theorem Dangles.isFatal {e : Failure} (dangles : b.Dangles o e) : e.isFatal = true := by
  obtain ⟨q, _, _, _, rfl⟩ := dangles
  rfl

theorem Dangles.of_open {e : Failure} (dangles : b.Dangles m e) (le : o ≤ m)
    (opened : b.OpenCommas o m) : b.Dangles o e := by
  obtain ⟨q, lower, closed, before, rfl⟩ := dangles
  exact ⟨q, Nat.le_trans le lower, closed, opened.trans before, rfl⟩

end Buffer

end RpcSchema
