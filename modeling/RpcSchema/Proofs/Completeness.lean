import RpcSchema.Proofs.Follow
import RpcSchema.Proofs.Productions

/-! Phrases that stand in a buffer are read. A message and a method are read wherever they stand,
and a bare word is read when nothing behind it makes more of it. So a row of phrases is read phrase
by phrase. -/
namespace RpcSchema

theorem Word.eq_of_chars {w w' : Word} (same : (Token.word w).chars = (Token.word w').chars) :
    w = w' := by
  cases w
  cases w'
  cases String.toList_inj.1 same
  rfl

namespace Grammar

open Rule

variable {policy : Policy} {b : Buffer} {s : State Declared} {o o' : Nat} {d : Declared}

theorem gives_keyword {k : Keyword} (found : b.holds o (Token.keyword k).chars = true)
    (start : b.Start o) (place : s.At o d) :
    (keyword [k.text]).Gives b s fun _ s' => s'.At (b.pastToken o (.keyword k)) d :=
  (leads_keyword k start place).imp (fun _ _ met => met.2) fun _ _ met => by simp [found] at met

theorem gives_sign {t : Sign} (found : b.holds o (Token.sign t).chars = true) (start : b.Start o)
    (place : s.At o d) :
    (keyword [t.text]).Gives b s fun _ s' => s'.At (b.pastToken o (.sign t)) d :=
  (leads_sign t start place).imp (fun _ _ met => met.2) fun _ _ met => by simp [found] at met

theorem gives_string {w : Word} (word : b.wordAt o = (Token.word w).chars) (place : s.At o d) :
    string.Gives b s fun text s' =>
      text = w.text ∧ s'.At (o + (Token.word w).chars.length) d := by
  refine (leads_string place).imp ?_ fun _ _ met => wordAt_ne_nil_of_word word met.1
  rintro _ s' ⟨w', rfl, word', place'⟩
  cases Word.eq_of_chars (word'.symm.trans word)
  exact ⟨rfl, place'⟩

theorem gives_identifier {w : Word} (word : b.wordAt o = (Token.word w).chars) (start : b.Start o)
    (place : s.At o d) :
    identifier.Gives b s fun text s' => text = w.text ∧ s'.At (b.pastToken o (.word w)) d := by
  refine (leads_identifier start place).imp ?_ fun _ _ met => wordAt_ne_nil_of_word word met.1
  rintro _ s' ⟨w', rfl, word', place'⟩
  cases Word.eq_of_chars (word'.symm.trans word)
  exact ⟨rfl, place'⟩

theorem gives_reference {w : Word} {found : Reference} (role : Role)
    (word : b.wordAt o = (Token.word w).chars)
    (resolved : Scope.resolve d.scope w.text = some found) (start : b.Start o)
    (place : s.At o d) :
    (reference role).Gives b s fun read s' => read = found ∧ s'.At (b.pastToken o (.word w)) d := by
  refine (leads_reference role start place).imp ?_ ?_
  · rintro read s' ⟨w', word', resolved', place'⟩
    cases Word.eq_of_chars (word'.symm.trans word)
    exact ⟨Option.some.inj (resolved'.symm.trans resolved), place'⟩
  · rintro e s' (⟨empty, _⟩ | ⟨w', word', missing, _⟩)
    · exact wordAt_ne_nil_of_word word empty
    · cases Word.eq_of_chars (word'.symm.trans word)
      cases missing.symm.trans resolved

theorem gives_pair (tight : b.Tight) {field : Field}
    (spelled : b.Spells Token.isWord o field.tokens o') (start : b.Start o) (place : s.At o d) :
    pair.Gives b s fun read s' => read = (field.name.text, field.type.text) ∧ s'.At o' d := by
  obtain ⟨hasName, hasColon, hasType, rfl⟩ := spelled
  have start₁ := tight.start_pastToken hasName.holds
  have start₂ := tight.start_pastToken hasColon.holds
  refine (gives_identifier (hasName.wordAt rfl rfl) start place).bind ?_
  rintro _ s₁ ⟨rfl, place₁⟩
  refine (gives_sign hasColon.holds start₁ place₁).bind fun _ s₂ place₂ => ?_
  refine (gives_identifier (hasType.wordAt rfl rfl) start₂ place₂).bind ?_
  rintro _ s₃ ⟨rfl, place₃⟩
  exact leads_pure ⟨rfl, place₃⟩

theorem gives_tryPair (tight : b.Tight) {field : Field}
    (spelled : b.Spells Token.isWord o field.tokens o') (start : b.Start o) (place : s.At o d) :
    (tryChoice [⟨"pair", pair⟩]).Gives b s fun value s' =>
      value = some (field.name.text, field.type.text) ∧ s'.At o' d := by
  refine leads_recover (leads_choice_one
    ((gives_pair tight spelled start (place.pastSpace start)).imp ?_ fun _ _ => False.elim))
  rintro _ s' ⟨rfl, place'⟩
  exact ⟨rfl, place'.pastSpace (spelled.start tight start)⟩

theorem gives_noPair (tight : b.Tight) (empty : b.wordAt o = []) (start : b.Start o)
    (place : s.At o d) :
    (tryChoice [⟨"pair", pair⟩]).Gives b s fun value s' => value = none ∧ s'.At o d := by
  refine (leads_tryPair tight start place).imp (fun value s' met => ?_) fun _ _ => id
  match value with
  | none => exact ⟨rfl, met⟩
  | some _ =>
    obtain ⟨field, _, ⟨hasName, _⟩, _⟩ := met
    exact absurd empty (wordAt_ne_nil_of_word (hasName.wordAt rfl rfl))

theorem gives_trySign {t : Sign} (found : b.holds o (Token.sign t).chars = true)
    (start : b.Start o) (place : s.At o d) :
    (tryKeyword [t.text]).Gives b s fun value s' =>
      value.isSome = true ∧ s'.At (b.pastToken o (.sign t)) d := by
  refine (leads_trySign t start place).imp (fun value s' met => ?_) fun _ _ => id
  match value with
  | none => simp [found] at met
  | some _ => exact ⟨rfl, met.2⟩

theorem gives_noSign {t : Sign} (missing : b.holds o (Token.sign t).chars = false)
    (start : b.Start o) (place : s.At o d) :
    (tryKeyword [t.text]).Gives b s fun value s' => value = none ∧ s'.At o d := by
  refine (leads_trySign t start place).imp (fun value s' met => ?_) fun _ _ => id
  match value with
  | none => exact ⟨rfl, met.2⟩
  | some _ => simp [missing] at met

theorem wordAt_of_sign {t : Sign} (found : b.holds o (Token.sign t).chars = true) :
    b.wordAt o = [] := by
  rw [Buffer.wordAt_eq_nil_iff, Buffer.tail_of_holds found]
  exact endsName_sign t _

theorem not_holds_comma (closed : b.holds o (Token.sign .closeBrace).chars = true) :
    b.holds o (Token.sign .comma).chars = false := by
  cases other : b.holds o (Token.sign .comma).chars with
  | false => rfl
  | true =>
    rw [Buffer.holds_iff_isPrefixOf, Buffer.tail_of_holds closed] at other
    simp [Token.chars, Sign.text, List.cons_prefix_cons] at other

theorem gives_fields (tight : b.Tight) {limit : Nat} {comma : Bool} {fs : List Field}
    (enough : b.size < o + limit) (spelled : b.Spells Token.isWord o (fieldsTokens comma fs) o')
    (closed : b.holds o' (Token.sign .closeBrace).chars = true) (start : b.Start o)
    (place : s.At o d) (afterComma : Bool)
    (allowed : (if fs = [] then afterComma else comma) = true → policy.trailingComma = .allow)
    (body : Body) :
    (fields policy limit afterComma body).Gives b s fun read s' =>
      read = insertFields fs body ∧ s'.At o' d := by
  induction limit generalizing s o fs afterComma body with
  | zero =>
    have inside := start.le_size
    omega
  | succ limit ih =>
    cases fs with
    | nil =>
      cases spelled
      refine (gives_noPair tight (wordAt_of_sign closed) start place).bind ?_
      rintro _ s₁ ⟨rfl, place₁⟩
      have lenient : (afterComma && decide (policy.trailingComma = .reject)) = false := by
        cases after : afterComma with
        | false => rfl
        | true => simp [allowed after]
      dsimp only
      rw [lenient]
      exact leads_pure ⟨rfl, place₁⟩
    | cons field rest =>
      obtain ⟨o₁, spelledField, spelled⟩ := (Buffer.spells_append _ _).1 spelled
      have start₁ := spelledField.start tight start
      refine (gives_tryPair tight spelledField start place).bind ?_
      rintro _ s₁ ⟨rfl, place₁⟩
      split at spelled
      -- The last field has no comma behind it, and the brace is not taken for one.
      · next single =>
        simp only [Bool.and_eq_true, List.isEmpty_iff, Bool.not_eq_true'] at single
        cases spelled
        refine (gives_noSign (not_holds_comma closed) start₁ place₁).bind ?_
        rintro _ s₂ ⟨rfl, place₂⟩
        rw [single.1]
        exact leads_pure ⟨rfl, place₂⟩
      · next more =>
        obtain ⟨hasComma, spelled⟩ := spelled
        have further := spelledField.lt (by simp [Field.tokens])
        have beyond := b.lt_pastToken o₁ (.sign .comma)
        refine (gives_trySign hasComma.holds start₁ place₁).bind ?_
        rintro value s₂ ⟨isSome, place₂⟩
        obtain ⟨text, rfl⟩ := Option.isSome_iff_exists.1 isSome
        refine ih (by omega) spelled (tight.start_pastToken hasComma.holds) place₂ true ?_ _
        -- Behind this comma the rest may be empty: then it is the one that ends the list.
        intro last
        refine allowed ?_
        cases rest with
        | nil => simpa using more
        | cons next later => simpa using last

theorem gives_body (tight : b.Tight) (m : MessagePhrase)
    (spelled : b.Spells Token.isWord o
      (.sign .openBrace :: (fieldsTokens m.comma m.fields ++ [.sign .closeBrace])) o')
    (allowed : m.comma = true → policy.trailingComma = .allow) (start : b.Start o)
    (place : s.At o d) :
    (body policy).Gives b s fun read s' => read = m.body ∧ s'.At o' d := by
  obtain ⟨hasOpen, spelled⟩ := spelled
  obtain ⟨o₁, spelledFields, hasClose, rfl⟩ := (Buffer.spells_append _ _).1 spelled
  have start₁ := tight.start_pastToken hasOpen.holds
  have start₂ := spelledFields.start tight start₁
  refine (gives_sign hasOpen.holds start place).bind fun _ s₁ place₁ => ?_
  refine leads_bind_of_ok (a := b.size - s₁.offset) rfl ?_
  have enough : b.size < b.pastToken o (.sign .openBrace) + (b.size - s₁.offset + 1) := by
    rw [place₁.offset_eq]
    omega
  have allowed' : (if m.fields = [] then false else m.comma) = true →
      policy.trailingComma = .allow := by
    split
    · exact fun impossible => by cases impossible
    · exact allowed
  refine (gives_fields tight enough spelledFields hasClose.holds start₁ place₁ false allowed'
    .empty).bind ?_
  rintro _ s₂ ⟨rfl, place₂⟩
  refine (gives_sign hasClose.holds start₂ place₂).bind fun _ s₃ place₃ => ?_
  exact leads_pure ⟨(body_eq_insertFields m).symm, place₃⟩

theorem gives_message (tight : b.Tight) {m : MessagePhrase}
    (spelled : b.Spells Token.isWord o (Phrase.message m).tokens o')
    (permitted : (Phrase.message m).Permitted policy d.scope) (start : b.Start o)
    (place : s.At o d) :
    (message policy).Gives b s fun read s' =>
      read = (m.name.text, m.body) ∧ s'.At o' (d.add (.message m.name.text m.body)) := by
  obtain ⟨hasKeyword, hasName, spelled⟩ := spelled
  have start₁ := tight.start_pastToken hasKeyword.holds
  have start₂ := tight.start_pastToken hasName.holds
  refine (gives_keyword hasKeyword.holds start place).bind fun _ s₁ place₁ => ?_
  refine leads_bind_of_ok rfl (leads_bind_of_ok rfl ?_)
  rw [State.moveTo_offset, place₁.pastSpace_eq start₁]
  have word := hasName.wordAt rfl rfl
  refine (leads_string (place₁.moveTo _)).bind ?_
    fun _ _ met => wordAt_ne_nil_of_word word met.1
  rintro _ s₂ ⟨w, rfl, word', place₂⟩
  cases Word.eq_of_chars (word'.symm.trans word)
  refine leads_bind_of_ok rfl ?_
  rw [place₂.offset_eq]
  refine (gives_body tight m spelled permitted.1 start₂ (place₂.moveTo _)).bind ?_
  rintro _ s₃ ⟨rfl, place₃⟩
  refine (leads_declare place₃ _ _).bind (fun _ s₄ declared => leads_pure ⟨rfl, declared.2⟩) ?_
  rintro e s' ⟨reject, known, _⟩
  exact known (permitted.2 reject)

theorem gives_method (tight : b.Tight) {name q r : Word} {request response : Reference}
    (spelled : b.Spells Token.isWord o (Phrase.method name q r).tokens o')
    (requested : Scope.resolve d.scope q.text = some request)
    (responded : Scope.resolve d.scope r.text = some response) (start : b.Start o)
    (place : s.At o d) :
    method.Gives b s fun read s' =>
      read = ⟨name.text, request, response⟩ ∧
        s'.At o' (d.add (.method ⟨name.text, request, response⟩)) := by
  obtain ⟨hasKeyword, hasName, hasOpen, hasRequest, hasClose, hasArrow, hasResponse, hasEnd, rfl⟩ :=
    spelled
  have start₁ := tight.start_pastToken hasKeyword.holds
  have start₂ := tight.start_pastToken hasName.holds
  have start₃ := tight.start_pastToken hasOpen.holds
  have start₄ := tight.start_pastToken hasRequest.holds
  have start₅ := tight.start_pastToken hasClose.holds
  have start₆ := tight.start_pastToken hasArrow.holds
  have start₇ := tight.start_pastToken hasResponse.holds
  refine (gives_keyword hasKeyword.holds start place).bind fun _ s₁ place₁ => ?_
  refine (gives_identifier (hasName.wordAt rfl rfl) start₁ place₁).bind ?_
  rintro _ s₂ ⟨rfl, place₂⟩
  refine (gives_sign hasOpen.holds start₂ place₂).bind fun _ s₃ place₃ => ?_
  refine (gives_reference .request (hasRequest.wordAt rfl rfl) requested start₃ place₃).bind ?_
  rintro _ s₄ ⟨rfl, place₄⟩
  refine (gives_sign hasClose.holds start₄ place₄).bind fun _ s₅ place₅ => ?_
  refine (gives_sign hasArrow.holds start₅ place₅).bind fun _ s₆ place₆ => ?_
  refine (gives_reference .response (hasResponse.wordAt rfl rfl) responded start₆ place₆).bind ?_
  rintro _ s₇ ⟨rfl, place₇⟩
  refine (gives_sign hasEnd.holds start₇ place₇).bind fun _ s₈ place₈ => ?_
  refine place₈.leads_held ?_
  exact ⟨rfl, place₈.offset_eq, rfl, place₈.sound⟩

theorem gives_primitiveType {w : Word} (word : b.wordAt o = (Token.word w).chars)
    (start : b.Start o) (place : s.At o d) :
    primitiveType.Gives b s fun read s' =>
      read = .bare w.text ∧ s'.At (b.pastToken o (.word w)) d := by
  refine leads_map ((gives_identifier word start place).imp ?_ fun _ _ => id)
  rintro _ s' ⟨rfl, place'⟩
  exact ⟨rfl, place'⟩

abbrev GivesUp {α : Type} (r : Production α) (b : Buffer) (s : State Declared) (d : Declared) :
    Prop :=
  r.Leads b s (fun _ _ => False) fun e s' => ∃ p, GaveUp p d e s'

theorem givesUp_method_of_message (found : b.holds o (Token.keyword .message).chars = true)
    (start : b.Start o) (place : s.At o d) : GivesUp method b s d := by
  refine (leads_keyword .method start place).bind ?_ fun _ _ met => ⟨o, met.2⟩
  rintro _ s₁ ⟨other, _⟩
  cases other.symm.trans (Buffer.not_holds_method found)

theorem givesUp_body (clear : b.NoSign o) (start : b.Start o) (place : s.At o d) :
    GivesUp (body policy) b s d := by
  refine (leads_sign .openBrace start place).bind ?_ fun _ _ met => ⟨o, met.2⟩
  rintro _ s₁ ⟨opened, _⟩
  cases opened.symm.trans (clear.not_holds .openBrace)

section Bare

variable {w : Word}

theorem givesUp_method (tight : b.Tight) (word : b.wordAt o = (Token.word w).chars)
    (alone : b.Alone (b.pastToken o (.word w))) (start : b.Start o) (place : s.At o d) :
    GivesUp method b s d := by
  refine (leads_keyword .method start place).bind ?_ fun _ _ met => ⟨o, met.2⟩
  rintro _ s₁ ⟨found, place₁⟩
  have start₁ := tight.start_pastToken found
  refine (leads_identifier start₁ place₁).bind ?_ fun _ _ met => ⟨_, met.2.2⟩
  rintro _ s₂ ⟨w', rfl, word', place₂⟩
  have start₂ := tight.start_pastToken (Buffer.has_word Token.isWord word').holds
  refine (leads_sign .openParen start₂ place₂).bind ?_ fun _ _ met => ⟨_, met.2⟩
  rintro _ s₃ ⟨opened, _⟩
  cases opened.symm.trans ((alone.behind word found word').not_holds .openParen)

theorem givesUp_message (tight : b.Tight) (word : b.wordAt o = (Token.word w).chars)
    (alone : b.Alone (b.pastToken o (.word w))) (start : b.Start o) (place : s.At o d) :
    GivesUp (message policy) b s d := by
  refine (leads_keyword .message start place).bind ?_ fun _ _ met => ⟨o, met.2⟩
  rintro _ s₁ ⟨found, place₁⟩
  have start₁ := tight.start_pastToken found
  refine leads_bind_of_ok rfl (leads_bind_of_ok rfl ?_)
  rw [State.moveTo_offset, place₁.pastSpace_eq start₁]
  refine (leads_string (place₁.moveTo _)).bind ?_ fun _ _ met => ⟨_, met.2⟩
  rintro _ s₂ ⟨w', rfl, word', place₂⟩
  have start₂ := tight.start_pastToken (Buffer.has_word Token.isWord word').holds
  refine leads_bind_of_ok rfl ?_
  rw [place₂.offset_eq]
  exact (givesUp_body (alone.behind word found word') start₂ (place₂.moveTo _)).bind
    (fun _ _ => False.elim) fun _ _ met => met

end Bare

theorem gives_choice_second {α : Type} {r q : Production α} {m n : String}
    {after : α → State Declared → Prop} (start : b.Start o) (place : s.At o d)
    (first : ∀ {s}, s.At o d → GivesUp r b s d)
    (second : ∀ {s}, s.At o d →
      q.Gives b s fun a s' => after a (s'.moveTo (b.pastSpace s'.offset))) :
    (choice [⟨m, r⟩, ⟨n, q⟩]).Gives b s after := by
  have here := place.pastSpace_eq start
  refine leads_choice_two ?_
  rw [here]
  refine (first (place.moveTo o)).imp (fun _ _ => False.elim) ?_
  rintro e s₁ ⟨p, gaveUp⟩
  refine ⟨fun fatal => absurd fatal gaveUp.not_fatal, fun _ => ?_⟩
  have place₁ := gaveUp.next (.branchFailed m e.position) o
  exact (second place₁).imp (fun _ _ met => met) fun _ _ => False.elim

theorem givesUp_complexType (tight : b.Tight) {w : Word}
    (word : b.wordAt o = (Token.word w).chars) (alone : b.Alone (b.pastToken o (.word w)))
    (start : b.Start o) (place : s.At o d) : GivesUp (complexType policy) b s d := by
  have here := place.pastSpace_eq start
  refine leads_choice_two ?_
  rw [here]
  refine leads_map ((givesUp_method tight word alone start (place.moveTo o)).imp
    (fun _ _ => False.elim) ?_)
  rintro e s₁ ⟨p, gaveUp⟩
  refine ⟨fun fatal => absurd fatal gaveUp.not_fatal, fun _ => ?_⟩
  have place₁ := gaveUp.next (.branchFailed "method" e.position) o
  refine leads_map ((givesUp_message tight word alone start place₁).imp (fun _ _ => False.elim) ?_)
  rintro e' s₂ ⟨p', gaveUp'⟩
  refine ⟨fun fatal => absurd fatal gaveUp'.not_fatal, fun _ => ?_⟩
  obtain ⟨q, gaveUpBoth, _⟩ := gaveUp_verdict gaveUp gaveUp'
  exact ⟨q, gaveUpBoth⟩

/-- A phrase that may stand where it does, with what it declares, and with nothing behind it that
makes more of a bare word. -/
structure Stands (policy : Policy) (b : Buffer) (o : Nat) (d : Declared) (phrase : Phrase)
    (declaration : Declaration) (o' : Nat) : Prop where
  spelled : b.Spells Token.isWord o phrase.tokens o'
  permitted : phrase.Permitted policy d.scope
  declared : phrase.declaration? d.scope = some declaration
  alone : ∀ w, phrase = .bare w → b.Alone o'

variable {phrase : Phrase} {declaration : Declaration}

theorem gives_complexType (tight : b.Tight) (stands : Stands policy b o d phrase declaration o')
    (complex : ∀ w, phrase ≠ .bare w) (start : b.Start o) (place : s.At o d) :
    (complexType policy).Gives b s fun read s' =>
      read = declaration ∧ s'.At o' (d.add declaration) := by
  obtain ⟨spelled, permitted, declared, _⟩ := stands
  have start' := spelled.start tight start
  cases phrase with
  | method name q r =>
    simp only [Phrase.declaration?, Option.bind_eq_bind, Option.bind_eq_some_iff,
      Option.some.injEq] at declared
    obtain ⟨request, requested, response, responded, rfl⟩ := declared
    refine Gives.choice_first (leads_map ?_)
    refine (gives_method tight spelled requested responded start (place.pastSpace start)).imp ?_
      fun _ _ => id
    rintro _ s' ⟨rfl, place'⟩
    exact ⟨rfl, place'.pastSpace start'⟩
  | message m =>
    cases declared
    have found := spelled.1.holds
    refine gives_choice_second start place
      (fun place => leads_map (givesUp_method_of_message found start place)) fun place => ?_
    refine leads_map ((gives_message tight spelled permitted start place).imp ?_ fun _ _ => id)
    rintro _ s' ⟨rfl, place'⟩
    exact ⟨rfl, place'.pastSpace start'⟩
  | bare w => exact absurd rfl (complex w)

theorem gives_anyType (tight : b.Tight) (stands : Stands policy b o d phrase declaration o')
    (start : b.Start o) (place : s.At o d) :
    (anyType policy).Gives b s fun read s' =>
      read = declaration ∧ s'.At o' (d.add declaration) := by
  have start' := stands.spelled.start tight start
  by_cases bare : ∃ w, phrase = .bare w
  · obtain ⟨w, rfl⟩ := bare
    have alone := stands.alone w rfl
    obtain ⟨⟨hasWord, rfl⟩, _, declared, _⟩ := stands
    cases declared
    have word := hasWord.wordAt rfl rfl
    refine gives_choice_second start place
      (fun place => givesUp_complexType tight word alone start place) fun place => ?_
    refine (gives_primitiveType word start place).imp ?_ fun _ _ => id
    rintro _ s' ⟨rfl, place'⟩
    exact ⟨rfl, place'.pastSpace start'⟩
  · have complex (w : Word) : phrase ≠ .bare w := fun same => bare ⟨w, same⟩
    refine Gives.choice_first ?_
    refine (gives_complexType tight stands complex start (place.pastSpace start)).imp ?_
      fun _ _ => id
    rintro _ s' ⟨rfl, place'⟩
    exact ⟨rfl, place'.pastSpace start'⟩

theorem gives_declaration (tight : b.Tight) (stands : Stands policy b o d phrase declaration o')
    (start : b.Start o) (place : s.At o d) :
    (Grammar.declaration policy).Gives b s fun read s' =>
      read = declaration ∧ s'.At o' (d.add declaration) := by
  refine Gives.choice_first ?_
  refine (gives_anyType tight stands start (place.pastSpace start)).imp ?_ fun _ _ => id
  rintro _ s' ⟨rfl, place'⟩
  exact ⟨rfl, place'.pastSpace (stands.spelled.start tight start)⟩

/-- The rounds read the phrases that stand before a position, and what is left leads where it does
from there. -/
theorem leads_rounds_of_spells (tight : b.Tight) {script : List Phrase} {d' : Declared}
    {limit : Nat} {after : Unit → State Declared → Prop}
    {refused : Failure → State Declared → Prop} (enough : b.size ≤ o + limit)
    (spelled : b.Spells Token.isName o (scriptTokens script) o') (alone : b.Alone o')
    (interprets : Interprets policy d script d') (start : b.Start o) (place : s.At o d)
    (rest : ∀ limit s, b.size ≤ o' + limit → s.At o' d' →
      (rounds policy limit).Leads b s after refused) :
    (rounds policy limit).Leads b s after refused := by
  induction script generalizing o s d limit with
  | nil =>
    cases spelled
    cases interprets
    exact rest limit s enough place
  | cons phrase later ih =>
    obtain ⟨m, here, spelled⟩ := (Buffer.spells_append _ _).1 spelled
    obtain ⟨declaration, permitted, declared, interprets⟩ := interprets
    have here' := here.mono fun _ => Token.isName_of_isWord
    have stands : Stands policy b o d phrase declaration m :=
      ⟨here', permitted, declared, fun _ _ => spelled.alone alone⟩
    have start₁ := here.start tight start
    have further := here.lt (tokens_ne_nil phrase)
    have inside := start₁.le_size
    cases limit with
    | zero => omega
    | succ limit =>
      refine leads_bind_of_ok rfl (leads_bind_of_ok rfl ?_)
      rw [place.offset_eq, if_neg (by omega)]
      refine (gives_declaration tight stands start place).bind ?_
      rintro _ s₁ ⟨rfl, place₁⟩
      refine leads_bind_of_ok rfl ?_
      rw [place₁.offset_eq, if_neg (by omega)]
      refine leads_bind_of_ok rfl ?_
      exact ih (by omega) spelled interprets start₁ (place₁.note _)

theorem gives_source (tight : b.Tight) {script : List Phrase} {d' : Declared}
    (spelled : b.Spells Token.isName 0 (scriptTokens script) b.size)
    (interprets : Interprets policy d script d') (place : s.At 0 d) :
    (source policy).Gives b s fun read _ => read = d' := by
  refine leads_bind_of_ok rfl ?_
  rw [place.offset_eq]
  have ended (limit : Nat) (s : State Declared) (past : s.At b.size d') :
      (rounds policy limit).Gives b s fun _ s' => s'.held = d' := by
    cases limit with
    | zero => exact leads_pure past.held_eq
    | succ limit =>
      refine leads_bind_of_ok rfl (leads_bind_of_ok rfl ?_)
      rw [past.offset_eq, if_pos (Nat.sub_self _)]
      exact leads_pure past.held_eq
  refine Gives.bind (leads_rounds_of_spells tight (by omega) spelled b.alone_size interprets
    tight.start_zero place fun limit s _ => ended limit s) ?_
  rintro _ s₁ rfl
  exact leads_bind_of_ok rfl (leads_bind_of_ok rfl (leads_pure rfl))

end Grammar

end RpcSchema
