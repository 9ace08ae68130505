import RpcSchema.Proofs.Layout

/-! What follows a bare word. Nothing behind it makes a message or a method of it when no sign comes
next and none behind the next word. In a row of phrases this is so: each phrase begins with two
tokens of name characters, or is a bare word itself. -/
namespace RpcSchema

namespace Buffer

variable {b : Buffer} {o o' : Nat}

theorem get?_of_holds {t : Token} (found : b.holds o t.chars = true) :
    b.get? o = t.chars.head? := by
  rw [← head?_tail, tail_of_holds found]
  cases chars : t.chars with
  | nil => exact absurd chars t.chars_ne_nil
  | cons c rest => rfl

def NoSign (b : Buffer) (o : Nat) : Prop := ∀ c, b.get? o = some c → isNameChar c = true

theorem noSign_of_holds {t : Token} (name : t.isName = true) (found : b.holds o t.chars = true) :
    b.NoSign o := by
  intro c here
  rw [get?_of_holds found] at here
  exact Token.named_of_isName name c (List.mem_of_head? here)

theorem NoSign.not_holds (clear : b.NoSign o) (t : Sign) :
    b.holds o (Token.sign t).chars = false := by
  cases found : b.holds o (Token.sign t).chars with
  | false => rfl
  | true =>
    cases chars : (Token.sign t).chars with
    | nil => exact absurd chars (Token.sign t).chars_ne_nil
    | cons c rest =>
      have here : b.get? o = some c := by rw [get?_of_holds found, chars]; rfl
      have ends := endsName_sign t []
      rw [List.append_nil, chars, endsName_cons, clear c here] at ends
      cases ends

/-- A bare word may end before the position: no sign comes next, nor behind a word that does. -/
structure Alone (b : Buffer) (o : Nat) : Prop where
  next : b.NoSign o
  later : ∀ w : Word, b.wordAt o = (Token.word w).chars → b.NoSign (b.pastToken o (.word w))

theorem alone_size (b : Buffer) : b.Alone b.size := by
  have ended : b.get? b.size = none := (b.get?_eq_none_iff _).2 (Nat.le_refl _)
  refine ⟨fun c here => by simp [ended] at here, fun w word => ?_⟩
  have empty : b.wordAt b.size = [] := by
    rw [wordAt_eq_nil_iff, (b.tail_eq_nil_iff _).2 (Nat.le_refl _)]
    exact endsName_nil
  exact absurd (word.symm.trans empty) w.ne_nil

theorem alone_of_has {t : Token} (name : t.isName = true) (has : b.Has Token.isName o t)
    (behind : b.NoSign (b.pastToken o t)) : b.Alone o := by
  refine ⟨noSign_of_holds name has.holds, fun w word => ?_⟩
  have same : (Token.word w).chars = t.chars := word.symm.trans (has.wordAt name name)
  rwa [pastToken, same]

theorem Spells.alone {script : List Phrase}
    (spelled : b.Spells Token.isName o (scriptTokens script) o') (alone : b.Alone o') :
    b.Alone o := by
  induction script generalizing o with
  | nil =>
    have same : o = o' := spelled
    exact same ▸ alone
  | cons phrase rest ih =>
    obtain ⟨m, here, spelled⟩ := (spells_append _ _).1 spelled
    cases phrase with
    | message p =>
      obtain ⟨has, hasName, _⟩ := here
      exact alone_of_has rfl has (noSign_of_holds rfl hasName.holds)
    | method name request response =>
      obtain ⟨has, hasName, _⟩ := here
      exact alone_of_has rfl has (noSign_of_holds rfl hasName.holds)
    | bare w =>
      obtain ⟨has, rfl⟩ := here
      exact alone_of_has rfl has (ih spelled).next

/-- When a bare word begins like a keyword, what would be the name behind that keyword is the rest
of the word, or the next word if nothing of it is left. No sign comes behind either. -/
theorem Alone.behind {w w' : Word} {k : Keyword} (word : b.wordAt o = (Token.word w).chars)
    (alone : b.Alone (b.pastToken o (.word w)))
    (found : b.holds o (Token.keyword k).chars = true)
    (word' : b.wordAt (b.pastToken o (.keyword k)) = (Token.word w').chars) :
    b.NoSign (b.pastToken (b.pastToken o (.keyword k)) (.word w')) := by
  have split : b.wordAt o =
      (Token.keyword k).chars ++ b.wordAt (o + (Token.keyword k).chars.length) := by
    rw [wordAt, tail_of_holds found, List.takeWhile_append_of_pos (Token.named_of_isName rfl)]
    rfl
  cases left : b.wordAt (o + (Token.keyword k).chars.length) with
  -- The word is the keyword itself, so that the name read is the word behind it.
  | nil =>
    have same : (Token.keyword k).chars = (Token.word w).chars := by
      rw [← word, split, left, List.append_nil]
    have past : b.pastToken o (.keyword k) = b.pastToken o (.word w) := by
      rw [pastToken, same, pastToken]
    rw [past] at word' ⊢
    exact alone.later w' word'
  -- The keyword is a part of the word. No space is stepped over, and the name ends with the word.
  | cons c rest =>
    have solid : b.get? (o + (Token.keyword k).chars.length) ≠ some ' ' := by
      intro space
      have ends := (b.endsName_tail_iff _).2 fun c here => by
        rw [space] at here
        cases here
        rfl
      rw [(b.wordAt_eq_nil_iff _).2 ends] at left
      cases left
    have past : b.pastToken o (.keyword k) = o + (Token.keyword k).chars.length := by
      rw [pastToken, pastSpace, if_neg solid]
    rw [past] at word' ⊢
    have whole : (Token.word w).chars = (Token.keyword k).chars ++ (Token.word w').chars := by
      rw [← word, split, word']
    have same : b.pastToken (o + (Token.keyword k).chars.length) (.word w') =
        b.pastToken o (.word w) := by
      rw [pastToken, pastToken, whole, List.length_append, Nat.add_assoc]
    exact same ▸ alone.next

theorem not_holds_method (found : b.holds o (Token.keyword .message).chars = true) :
    b.holds o (Token.keyword .method).chars = false := by
  cases other : b.holds o (Token.keyword .method).chars with
  | false => rfl
  | true =>
    rw [holds_iff_isPrefixOf, tail_of_holds found] at other
    simp [Token.chars, Keyword.text, List.cons_prefix_cons] at other

end Buffer

end RpcSchema
