import RpcSchema.Proofs.Traversal

/-! Buffers that begin with another one. As long as no name runs over its end, the same tokens are
spelled before that end in both, and so the same phrases are read there. What is read before a
closing sign is the same whatever comes behind that sign. -/
namespace RpcSchema

namespace Buffer

/-- The buffer begins with another one, over whose end no name runs. -/
structure Begins (b n : Buffer) : Prop where
  tight : b.Tight
  tight' : n.Tight
  front : n.chars.toList <+: b.chars.toList
  apart : ∀ c, n.get? (n.size - 1) = some c → isNameChar c = true → EndsName (b.tail n.size)

/-- A position of the shorter buffer stands for the same one of the longer buffer, and its end for
the position behind the space that may follow it. -/
def Marks (b n : Buffer) (o o' : Nat) : Prop :=
  (o < n.size ∧ o' = o) ∨ (o = n.size ∧ o' = b.pastSpace n.size)

namespace Begins

variable {b n : Buffer} {o o' p p' : Nat} {t : Token} {ts : List Token}

theorem tail_eq (begins : b.Begins n) (inside : o ≤ n.size) :
    b.tail o = n.tail o ++ b.tail n.size := by
  obtain ⟨more, split⟩ := begins.front
  have whole : n.size = n.chars.toList.length := rfl
  unfold tail
  rw [← split, List.drop_append_of_le_length inside, whole, List.drop_left]

theorem get?_eq (begins : b.Begins n) (inside : o < n.size) : b.get? o = n.get? o := by
  have some : n.get? o ≠ none := fun none =>
    Nat.not_le.2 inside ((n.get?_eq_none_iff o).1 none)
  rw [← head?_tail, begins.tail_eq (Nat.le_of_lt inside), List.head?_append, head?_tail]
  exact Option.or_of_isSome (Option.isSome_iff_ne_none.2 some)

theorem holds_of_front (begins : b.Begins n) (inside : o ≤ n.size) {literal : List Char}
    (found : n.holds o literal = true) : b.holds o literal = true := by
  rw [holds_iff_isPrefixOf] at found ⊢
  rw [begins.tail_eq inside]
  exact found.trans (List.prefix_append _ _)

theorem holds_front (begins : b.Begins n) {literal : List Char}
    (found : b.holds o literal = true) (inside : o + literal.length ≤ n.size) :
    n.holds o literal = true := by
  rw [holds_iff_isPrefixOf] at found ⊢
  rw [begins.tail_eq (by omega)] at found
  refine List.prefix_of_prefix_length_le found (List.prefix_append _ _) ?_
  rw [length_tail]
  omega

theorem pastSpace_marks (begins : b.Begins n) (inside : p ≤ n.size) :
    b.Marks n (n.pastSpace p) (b.pastSpace p) := by
  rcases Nat.lt_or_eq_of_le inside with before | rfl
  · refine .inl ?_
    have same := begins.get?_eq before
    by_cases space : n.get? p = some ' '
    · obtain ⟨c, next, _⟩ := begins.tight'.get?_succ space
      have more := lt_size_of_get? next
      simp [pastSpace, same, space, more]
    · simp [pastSpace, same, space, before]
  · have ended : n.get? n.size = none := (n.get?_eq_none_iff _).2 (Nat.le_refl _)
    exact .inr ⟨by simp [pastSpace, ended], rfl⟩

theorem has_of_front (begins : b.Begins n) (marks : b.Marks n o o')
    (has : n.Has Token.isWord o t) :
    b.Has Token.isWord o' t ∧ b.Marks n (n.pastToken o t) (b.pastToken o' t) := by
  have within := inside_of_holds has.holds
  have long := List.length_pos_iff.2 t.chars_ne_nil
  rcases marks with ⟨_, rfl⟩ | ⟨rfl, _⟩
  · refine ⟨⟨begins.holds_of_front (by omega) has.holds, fun word => ?_⟩,
      begins.pastSpace_marks within⟩
    have ends := has.ends word
    rcases Nat.lt_or_eq_of_le within with before | final
    · rw [endsName_tail_iff] at ends ⊢
      rwa [begins.get?_eq before]
    · rw [final]
      cases last : n.get? (n.size - 1) with
      | none =>
        have past := (n.get?_eq_none_iff _).1 last
        omega
      | some c =>
        have member := mem_chars_of_holds has.holds (by omega) (by omega) last
        exact begins.apart c last (Token.named_of_isName (Token.isName_of_isWord word) c member)
  · omega

theorem has_front (begins : b.Begins n) (marks : b.Marks n o o')
    (has : b.Has Token.isWord o' t) (before : b.pastToken o' t ≤ b.pastSpace n.size) :
    n.Has Token.isWord o t ∧ b.Marks n (n.pastToken o t) (b.pastToken o' t) := by
  rcases marks with ⟨_, rfl⟩ | ⟨rfl, rfl⟩
  · -- A token that ran over the end would hold the space that stands there.
    have within : o' + t.chars.length ≤ n.size := by
      apply Nat.le_of_not_lt
      intro beyond
      have further := Nat.le_trans (b.le_pastSpace (o' + t.chars.length)) before
      have space : b.get? n.size = some ' ' := by
        unfold pastSpace at further
        split at further
        · assumption
        · omega
      have member := mem_chars_of_holds has.holds (by omega) beyond space
      exact absurd isBlank_space (by simp [(t.plain ' ' member).1])
    refine ⟨⟨begins.holds_front has.holds within, fun word => ?_⟩, begins.pastSpace_marks within⟩
    have ends := has.ends word
    intro c first
    refine ends c ?_
    rw [begins.tail_eq within, List.head?_append, first]
    rfl
  · have further := b.lt_pastToken (b.pastSpace n.size) t
    omega

theorem spells_of_front (begins : b.Begins n) (marks : b.Marks n o o')
    (spelled : n.Spells Token.isWord o ts p) :
    ∃ p', b.Marks n p p' ∧ b.Spells Token.isWord o' ts p' := by
  induction ts generalizing o o' with
  | nil =>
    cases spelled
    exact ⟨o', marks, rfl⟩
  | cons t rest ih =>
    obtain ⟨has, further⟩ := begins.has_of_front marks spelled.1
    obtain ⟨p', marks', later⟩ := ih further spelled.2
    exact ⟨p', marks', has, later⟩

theorem spells_front (begins : b.Begins n) (marks : b.Marks n o o')
    (spelled : b.Spells Token.isWord o' ts p') (before : p' ≤ b.pastSpace n.size) :
    ∃ p, b.Marks n p p' ∧ n.Spells Token.isWord o ts p := by
  induction ts generalizing o o' with
  | nil =>
    cases spelled
    exact ⟨o, marks, rfl⟩
  | cons t rest ih =>
    obtain ⟨has, further⟩ := begins.has_front marks spelled.1
      (Nat.le_trans spelled.2.le before)
    obtain ⟨p, marks', later⟩ := ih further spelled.2
    exact ⟨p, marks', has, later⟩

theorem marks_zero (begins : b.Begins n) : b.Marks n 0 0 := by
  rcases Nat.eq_zero_or_pos n.size with empty | some
  · exact .inr ⟨empty.symm, by rw [empty, begins.tight.start_zero.pastSpace_eq]⟩
  · exact .inl ⟨some, rfl⟩

end Begins

theorem Marks.of_lt {b n : Buffer} {o o' : Nat} (marks : b.Marks n o o') (inside : o < n.size) :
    o' = o := by
  rcases marks with ⟨_, same⟩ | ⟨final, _⟩
  · exact same
  · omega

theorem Marks.of_size {b n : Buffer} {o' : Nat} (marks : b.Marks n n.size o') :
    o' = b.pastSpace n.size := by
  rcases marks with ⟨impossible, _⟩ | ⟨_, same⟩
  · omega
  · exact same

theorem Marks.of_pastSpace {b n : Buffer} {o o' : Nat} (marks : b.Marks n o o')
    (final : b.pastSpace n.size = o') : o = n.size := by
  rcases marks with ⟨before, same⟩ | ⟨same, _⟩
  · have further := b.le_pastSpace n.size
    omega
  · exact same

end Buffer

def Token.closes : Token → Bool
  | sign .closeBrace | sign .semicolon => true
  | sign _ | keyword _ | word _ => false

theorem Token.closes_of_mem {t : Token} {c : Char} (closing : c = '\x7d' ∨ c = ';')
    (member : c ∈ t.chars) : t.closes = true ∧ t.chars.length = 1 := by
  have sign : isNameChar c = false := by rcases closing with rfl | rfl <;> rfl
  cases t with
  | word w => cases sign.symm.trans (w.named c member)
  | keyword k => cases sign.symm.trans (named_of_isName rfl c member)
  | sign s =>
    cases s with
    | closeBrace | semicolon => exact ⟨rfl, rfl⟩
    | _ => rcases closing with rfl | rfl <;> simp [chars, Sign.text] at member

theorem Token.closes_fieldsTokens (comma : Bool) (fs : List Field) :
    ∀ t ∈ fieldsTokens comma fs, t.closes = false := by
  induction fs with
  | nil => simp [fieldsTokens]
  | cons field rest ih =>
    intro t member
    rcases List.mem_append.1 member with here | later
    · simp only [Field.tokens, List.mem_cons, List.not_mem_nil, or_false] at here
      rcases here with rfl | rfl | rfl <;> rfl
    · split at later
      · cases later
      · rcases List.mem_cons.1 later with rfl | later
        · rfl
        · exact ih t later

theorem Decides.exists_last {scope : Scope} {ts : List Token} (decides : Decides scope ts) :
    ∃ init last, ts = init ++ [last] ∧ ∀ t ∈ init, t.closes = false := by
  cases decides with
  | phrase phrase complex declaration declared =>
    cases phrase with
    | message m =>
      refine ⟨_, _, rfl, fun t member => ?_⟩
      rcases List.mem_append.1 member with head | fields
      · simp only [List.mem_cons, List.not_mem_nil, or_false] at head
        rcases head with rfl | rfl | rfl <;> rfl
      · exact Token.closes_fieldsTokens m.comma m.fields t fields
    | method name q r => exact ⟨[_, _, _, _, _, _, _], _, rfl, by simp [Token.closes]⟩
    | bare w => exact absurd rfl (complex w)
  | opening opening breaks =>
    refine ⟨_, _, rfl, ?_⟩
    cases opening <;> simp [Opening.lead, Token.closes]

namespace Buffer

variable {b n : Buffer} {o o' p i : Nat} {c : Char} {ts : List Token}

theorem pastSpace_mono (b : Buffer) (le : o ≤ p) : b.pastSpace o ≤ b.pastSpace p := by
  rcases Nat.lt_or_eq_of_le le with before | rfl
  · have further := b.le_pastSpace p
    unfold pastSpace at further ⊢
    split <;> omega
  · exact Nat.le_refl _

theorem Spells.le_of_closing {greedy : Token → Bool} (spelled : b.Spells greedy o ts p)
    (opens : ∀ t ∈ ts, t.closes = false) (closing : c = '\x7d' ∨ c = ';')
    (here : b.get? i = some c) (lower : o ≤ i) : p ≤ i := by
  have solid : c ≠ ' ' := by rcases closing with rfl | rfl <;> decide
  induction ts generalizing o with
  | nil =>
    cases spelled
    exact lower
  | cons t rest ih =>
    refine ih spelled.2 (fun u member => opens u (List.mem_cons_of_mem _ member)) ?_
    apply Nat.le_of_not_lt
    intro inside
    have member := mem_chars_of_lt_pastToken spelled.1.holds lower inside here solid
    have closes := (Token.closes_of_mem closing member).1
    cases closes.symm.trans (opens t List.mem_cons_self)

theorem Spells.le_of_decides {scope : Scope} (spelled : b.Spells Token.isWord o ts p)
    (decides : Decides scope ts) (closing : c = '\x7d' ∨ c = ';') (here : b.get? i = some c)
    (lower : o ≤ i) : p ≤ b.pastSpace (i + 1) := by
  have solid : c ≠ ' ' := by rcases closing with rfl | rfl <;> decide
  obtain ⟨init, last, rfl, opens⟩ := decides.exists_last
  obtain ⟨m, before, has, rfl⟩ := (spells_append _ _).1 spelled
  have reached := before.le_of_closing opens closing here lower
  by_cases inside : i < b.pastToken m last
  · have member := mem_chars_of_lt_pastToken has.holds reached inside here solid
    rw [pastToken, (Token.closes_of_mem closing member).2]
    exact b.pastSpace_mono (Nat.succ_le_succ reached)
  · have further := b.le_pastSpace (i + 1)
    omega

/-- The buffer is empty, or a closing sign stands at its end. -/
def Closed (n : Buffer) : Prop :=
  n.size = 0 ∨ n.get? (n.size - 1) = some '\x7d' ∨ n.get? (n.size - 1) = some ';'

namespace Begins

variable {scope : Scope}

theorem decided_of_front (begins : b.Begins n) (marks : b.Marks n o o')
    (decided : n.Decided o scope) : b.Decided o' scope := by
  obtain ⟨ts, p, decides, spelled⟩ := decided
  obtain ⟨p', _, spelled'⟩ := begins.spells_of_front marks spelled
  exact ⟨ts, p', decides, spelled'⟩

theorem decided_front (begins : b.Begins n) (closed : n.Closed) (inside : o < n.size)
    (decided : b.Decided o scope) : n.Decided o scope := by
  obtain ⟨ts, p, decides, spelled⟩ := decided
  have sign : ∃ c, (c = '\x7d' ∨ c = ';') ∧ n.get? (n.size - 1) = some c := by
    rcases closed with empty | brace | semicolon
    · omega
    · exact ⟨_, .inl rfl, brace⟩
    · exact ⟨_, .inr rfl, semicolon⟩
  obtain ⟨c, closing, last⟩ := sign
  rw [← begins.get?_eq (by omega)] at last
  have before := spelled.le_of_decides decides closing last (by omega)
  rw [Nat.sub_add_cancel (by omega)] at before
  obtain ⟨p', _, spelled'⟩ := begins.spells_front (.inl ⟨inside, rfl⟩) spelled before
  exact ⟨ts, p', decides, spelled'⟩

end Begins

end Buffer

namespace Grammar

variable {policy : Policy} {b n : Buffer} {o o' p p' : Nat} {d d' : Declared}

theorem traverses_of_front (begins : b.Begins n) (closed : n.Closed) (marks : b.Marks n o o')
    (traverses : Traverses policy n o d p d') :
    ∃ p', b.Marks n p p' ∧ Traverses policy b o' d p' d' := by
  induction traverses generalizing o' with
  | rest o d => exact ⟨o', marks, .rest o' d⟩
  | @next o m p d d' phrase declaration reads later ih =>
    obtain ⟨m', further, spelled⟩ := begins.spells_of_front marks reads.spelled
    obtain ⟨p', marks', later'⟩ := ih further
    refine ⟨p', marks', .next phrase declaration ?_ later'⟩
    refine ⟨spelled, reads.permitted, reads.declared, fun w bare decided => ?_⟩
    have inside : o < n.size := reads.inside
    cases marks.of_lt inside
    exact reads.undecided w bare (begins.decided_front closed inside decided)

theorem traverses_front (begins : b.Begins n) (marks : b.Marks n o o')
    (traverses : Traverses policy b o' d p' d') (before : p' ≤ b.pastSpace n.size) :
    ∃ p, b.Marks n p p' ∧ Traverses policy n o d p d' := by
  induction traverses generalizing o with
  | rest o' d => exact ⟨o, marks, .rest o d⟩
  | @next o' m' p' d d' phrase declaration reads later ih =>
    obtain ⟨m, further, spelled⟩ := begins.spells_front marks reads.spelled
      (Nat.le_trans later.le before)
    obtain ⟨p, marks', later'⟩ := ih further before
    refine ⟨p, marks', .next phrase declaration ?_ later'⟩
    exact ⟨spelled, reads.permitted, reads.declared, fun w bare decided =>
      reads.undecided w bare (begins.decided_of_front marks decided)⟩

end Grammar

end RpcSchema
