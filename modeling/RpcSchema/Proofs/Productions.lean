import RpcSchema.Proofs.Reading

/-! What the productions read in a tight buffer. A production that succeeds has read the tokens of
a phrase and declares what the phrase declares. One that fails has either given up, so that a choice
tries its next branch, or met a fault that no choice recovers from. -/
namespace RpcSchema

/-- The failures with which reading a buffer ends. -/
def Buffer.Refuses (b : Buffer) (policy : Policy) (e : Failure) : Prop :=
  e.position < b.size ∧
    match e.cause with
    | .noBranch rules found =>
      rules = ["complexType", "primitiveType"] ∧ found = b.get? e.position ∧
        ∃ c, found = some c ∧ c ≠ ' ' ∧ isNameChar c = false
    | .undefinedMessage _ name => name.toList ≠ [] ∧ name.toList = b.wordAt e.position
    | .duplicateMessage name =>
      policy.duplicates = .reject ∧ name.toList ≠ [] ∧ name.toList = b.wordAt e.position
    | .danglingComma found =>
      policy.trailingComma = .reject ∧ found = some '\x7d' ∧ b.get? e.position = some '\x7d'
    | .endOfInput _ | .wrongChar _ _ | .wrongKeyword _ | .badRange _ | .alreadySpent
    | .internal _ => False

def Buffer.Decided (b : Buffer) (o : Nat) (scope : Scope) : Prop :=
  ∃ ts o', Decides scope ts ∧ b.Spells Token.isWord o ts o'

namespace Grammar

open Rule

variable {policy : Policy} {b : Buffer} {s : State Declared} {o : Nat} {d : Declared}

/-- A fault that no choice recovers from, in a message or a method that is decided. -/
structure Faults (policy : Policy) (b : Buffer) (o : Nat) (d : Declared) (e : Failure) : Prop where
  fatal : e.isFatal = true
  refuses : b.Refuses policy e
  le_position : o ≤ e.position
  decided : b.Decided o d.scope

/-- A production gives up, at its first position if no name stands there, or meets a fault. -/
def Stops (policy : Policy) (b : Buffer) (o : Nat) (d : Declared) (e : Failure)
    (s : State Declared) : Prop :=
  (∃ p, GaveUp p d e s ∧ (b.wordAt o = [] → p = o)) ∨ Faults policy b o d e

theorem Stops.faults {e : Failure} (stops : Stops policy b o d e s) (fatal : e.isFatal = true) :
    Faults policy b o d e := by
  rcases stops with ⟨p, gaveUp, _⟩ | faults
  · exact absurd fatal gaveUp.not_fatal
  · exact faults

theorem Stops.gaveUp {e : Failure} (stops : Stops policy b o d e s) (notFatal : e.isFatal = false) :
    ∃ p, GaveUp p d e s ∧ (b.wordAt o = [] → p = o) := by
  rcases stops with gaveUp | faults
  · exact gaveUp
  · cases notFatal.symm.trans faults.fatal

/-- A declaration has been read from a phrase that stands at the position. -/
def Reads (policy : Policy) (b : Buffer) (o : Nat) (d : Declared) (declaration : Declaration)
    (s : State Declared) : Prop :=
  ∃ (phrase : Phrase) (o' : Nat),
    b.Spells Token.isWord o phrase.tokens o' ∧ phrase.Permitted policy d.scope ∧
      phrase.declaration? d.scope = some declaration ∧ s.At o' (d.add declaration)

theorem lt_size_of_wordAt (some : b.wordAt o ≠ []) : o < b.size := by
  refine Nat.lt_of_not_le fun past => some ?_
  rw [Buffer.wordAt_eq_nil_iff, (b.tail_eq_nil_iff o).2 past]
  exact endsName_nil

theorem wordAt_ne_nil_of_word {w : Word} (word : b.wordAt o = (Token.word w).chars) :
    b.wordAt o ≠ [] := word ▸ w.ne_nil

theorem wordAt_ne_nil_of_keyword {k : Keyword}
    (found : b.holds o (Token.keyword k).chars = true) : b.wordAt o ≠ [] := by
  rw [Buffer.wordAt, Buffer.tail_of_holds found]
  cases k <;> simp [Token.chars, Keyword.text, isNameChar]

theorem leads_pair (tight : b.Tight) (start : b.Start o) (place : s.At o d) :
    pair.Leads b s
      (fun read s' => ∃ (field : Field) (o' : Nat), b.Spells Token.isWord o field.tokens o' ∧
        read = (field.name.text, field.type.text) ∧ s'.At o' d)
      fun e s' => ∃ p, GaveUp p d e s' := by
  refine (leads_identifier start place).bind ?_ fun _ _ met => ⟨_, met.2.2⟩
  rintro _ s₁ ⟨name, rfl, nameAt, place₁⟩
  have hasName := Buffer.has_word Token.isWord nameAt
  have start₁ := tight.start_pastToken hasName.holds
  refine (leads_sign .colon start₁ place₁).bind ?_ fun _ _ met => ⟨_, met.2⟩
  rintro _ s₂ ⟨colon, place₂⟩
  have start₂ := tight.start_pastToken colon
  refine (leads_identifier start₂ place₂).bind ?_ fun _ _ met => ⟨_, met.2.2⟩
  rintro _ s₃ ⟨type, rfl, typeAt, place₃⟩
  exact leads_pure ⟨⟨name, type⟩, _,
    ⟨hasName, .lazy rfl colon, Buffer.has_word _ typeAt, rfl⟩, rfl, place₃⟩

theorem leads_tryPair (tight : b.Tight) (start : b.Start o) (place : s.At o d) :
    (tryChoice [⟨"pair", pair⟩]).Gives b s fun value s' =>
      match value with
      | some read => ∃ (field : Field) (o' : Nat), b.Spells Token.isWord o field.tokens o' ∧
          read = (field.name.text, field.type.text) ∧ s'.At o' d
      | none => s'.At o d := by
  refine leads_recover (leads_choice_one
    ((leads_pair tight start (place.pastSpace start)).imp ?_ ?_))
  · rintro read s' ⟨field, o', spelled, same, place⟩
    exact ⟨field, o', spelled, same, place.pastSpace (spelled.start tight start)⟩
  · rintro e s' ⟨p, gaveUp⟩
    refine ⟨fun fatal => absurd fatal gaveUp.not_fatal, fun _ => ?_⟩
    exact ⟨fun fatal => absurd fatal gaveUp.not_fatal,
      fun _ => ⟨place.offset_eq, gaveUp.held_eq, gaveUp.sound⟩⟩

theorem leads_refuseBrace (reject : policy.trailingComma = .reject) (start : b.Start o)
    (place : s.At o d) :
    refuseBrace.Leads b s (fun _ s' => b.get? o ≠ some '\x7d' ∧ s'.At o d)
      fun e _ => e.isFatal = true ∧ b.Refuses policy e ∧ e.position = o ∧
        b.get? o = some '\x7d' := by
  have here := place.pastSpace_eq start
  refine leads_bind_of_ok rfl (leads_bind_of_ok rfl (leads_bind_of_ok rfl ?_))
  simp only [State.moveTo_offset, here]
  split
  · next brace =>
    exact leads_fail ⟨rfl, ⟨Buffer.lt_size_of_get? brace, reject, brace, brace⟩, rfl, brace⟩
  · next other => exact leads_pure ⟨other, place.moveTo o⟩

def insertFields (fields : List Field) (body : Body) : Body :=
  fields.foldl (fun body field => body.insert field.name.text field.type.text) body

/-- Fields are read up to where no pair follows. When that is behind a comma, no brace stands there
if the policy refuses it, and fields are refused only at such a brace. -/
theorem leads_fields (tight : b.Tight) {limit : Nat} (enough : b.size < o + limit)
    (start : b.Start o) (place : s.At o d) (afterComma : Bool) (body : Body) :
    (fields policy limit afterComma body).Leads b s
      (fun read s' => ∃ (comma : Bool) (fs : List Field) (o' : Nat),
        b.Spells Token.isWord o (fieldsTokens comma fs) o' ∧ (comma = true → fs ≠ []) ∧
        read = insertFields fs body ∧ s'.At o' d ∧
        ((if fs = [] then afterComma else comma) = true → policy.trailingComma = .reject →
          b.get? o' ≠ some '\x7d'))
      fun e _ => e.isFatal = true ∧ b.Refuses policy e ∧
        ∃ fs : List Field, (fs = [] → afterComma = true) ∧
          b.Spells Token.isWord o (fieldsTokens true fs) e.position ∧
          b.get? e.position = some '\x7d' := by
  induction limit generalizing s o afterComma body with
  | zero =>
    have inside := start.le_size
    omega
  | succ limit ih =>
    refine (leads_tryPair tight start place).bind fun value s₁ met => ?_
    match value with
    | none =>
      dsimp only
      split
      -- No field stands behind a comma, and the policy has the next character looked at.
      · next both =>
        simp only [Bool.and_eq_true, decide_eq_true_eq] at both
        refine (leads_refuseBrace both.2 start met).bind (fun _ s₂ clear => leads_pure ?_) ?_
        · exact ⟨false, [], o, rfl, by simp, rfl, clear.2, fun _ _ => clear.1⟩
        · rintro e s₂ ⟨fatal, refuses, same, brace⟩
          exact ⟨fatal, refuses, [], fun _ => both.1, same.symm, by rw [same, brace]⟩
      · next lenient =>
        refine leads_pure ⟨false, [], o, rfl, by simp, rfl, met, fun after reject => ?_⟩
        simp only [if_true] at after
        simp [after, reject] at lenient
    | some read =>
      obtain ⟨field, o₁, spelled, rfl, place₁⟩ := met
      have start₁ := spelled.start tight start
      refine (leads_trySign .comma start₁ place₁).bind fun value s₂ met => ?_
      match value with
      | none =>
        refine leads_pure ⟨false, [field], o₁, ?_, by simp, rfl, met.2, by simp⟩
        simpa [fieldsTokens] using spelled
      | some _ =>
        obtain ⟨comma, place₂⟩ := met
        have further := spelled.lt (by simp [Field.tokens])
        have beyond := b.lt_pastToken o₁ (.sign .comma)
        have behind {last : Bool} {fs : List Field} {o' : Nat} (rest : b.Spells Token.isWord
            (b.pastToken o₁ (.sign .comma)) (fieldsTokens last fs) o') :
            b.Spells Token.isWord o (fieldsTokens (last || fs.isEmpty) (field :: fs)) o' := by
          rw [fieldsTokens_comma]
          exact (Buffer.spells_append _ _).2 ⟨o₁, spelled, .lazy rfl comma, rest⟩
        refine (ih (by omega) (tight.start_pastToken comma) place₂ true _).imp ?_ ?_
        · rintro body' s₃ ⟨last, fs, o', rest, follows, rfl, place₃, closes⟩
          refine ⟨last || fs.isEmpty, field :: fs, o', behind rest, by simp, rfl, place₃, ?_⟩
          cases fs with
          | nil => simpa using closes
          | cons next later => simpa using closes
        · rintro e s₃ ⟨fatal, refuses, fs, _, rest, brace⟩
          exact ⟨fatal, refuses, field :: fs, by simp, behind rest, brace⟩

theorem body_eq_insertFields (m : MessagePhrase) : m.body = insertFields m.fields .empty := by
  rw [MessagePhrase.body, OrderedMap.ofList, List.foldl_map]
  rfl

theorem leads_body (tight : b.Tight) (start : b.Start o) (place : s.At o d) (name : Word) :
    (body policy).Leads b s
      (fun read s' => ∃ (m : MessagePhrase) (o' : Nat), m.name = name ∧ read = m.body ∧
        b.Spells Token.isWord o
          (.sign .openBrace :: (fieldsTokens m.comma m.fields ++ [.sign .closeBrace])) o' ∧
        (m.comma = true → policy.trailingComma = .allow) ∧ s'.At o' d)
      fun e s' => (∃ p, GaveUp p d e s') ∨ (e.isFatal = true ∧ b.Refuses policy e ∧
        o ≤ e.position ∧ ∃ (m : MessagePhrase) (o' : Nat), m.name = name ∧
          b.Spells Token.isWord o
            (.sign .openBrace :: (fieldsTokens m.comma m.fields ++ [.sign .closeBrace])) o') := by
  refine (leads_sign .openBrace start place).bind ?_ fun _ _ met => .inl ⟨_, met.2⟩
  rintro _ s₁ ⟨opened, place₁⟩
  have start₁ := tight.start_pastToken opened
  refine leads_bind_of_ok (a := b.size - s₁.offset) rfl ?_
  have enough : b.size < b.pastToken o (.sign .openBrace) + (b.size - s₁.offset + 1) := by
    rw [place₁.offset_eq]
    omega
  have whole {comma : Bool} {fs : List Field} {o₂ : Nat}
      (spelled : b.Spells Token.isWord (b.pastToken o (.sign .openBrace)) (fieldsTokens comma fs)
        o₂)
      (closed : b.holds o₂ (Token.sign .closeBrace).chars = true) :
      b.Spells Token.isWord o
        (.sign .openBrace :: (fieldsTokens comma fs ++ [.sign .closeBrace]))
        (b.pastToken o₂ (.sign .closeBrace)) :=
    ⟨.lazy rfl opened, (Buffer.spells_append _ _).2 ⟨o₂, spelled, .lazy rfl closed, rfl⟩⟩
  refine (leads_fields tight enough start₁ place₁ false .empty).bind ?_ ?_
  · rintro _ s₂ ⟨comma, fs, o₂, spelled, follows, rfl, place₂, closes⟩
    have start₂ := spelled.start tight start₁
    refine (leads_sign .closeBrace start₂ place₂).bind ?_ fun _ _ met => .inl ⟨_, met.2⟩
    rintro _ s₃ ⟨closed, place₃⟩
    have made := body_eq_insertFields ⟨name, fs, comma, follows⟩
    refine leads_pure ⟨⟨name, fs, comma, follows⟩, _, rfl, made.symm, whole spelled closed, ?_,
      place₃⟩
    intro last
    have brace : b.get? o₂ = some '\x7d' := by
      have first := Buffer.tail_of_holds closed
      rw [← b.head?_tail, first]
      rfl
    cases allowed : policy.trailingComma with
    | allow => rfl
    | reject => exact absurd brace (closes (by simpa [follows last] using last) allowed)
  · rintro e s₂ ⟨fatal, refuses, fs, some, spelled, brace⟩
    have closed : b.holds e.position (Token.sign .closeBrace).chars = true := by
      rw [b.holds_iff_isPrefixOf, Buffer.tail_of_get? brace]
      exact ⟨_, rfl⟩
    have follows : true = true → fs ≠ [] := fun _ empty => by cases some empty
    have further := Nat.le_trans (Nat.le_of_lt (b.lt_pastToken o _)) spelled.le
    exact .inr ⟨fatal, refuses, further, ⟨name, fs, true, follows⟩, _, rfl, whole spelled closed⟩

theorem leads_declare {start : Nat} (place : s.At o d) (name : String) (body : Body) :
    (declare policy start name body).Leads b s
      (fun _ s' => (policy.duplicates = .reject → d.scope.get? name = none) ∧
        s'.At o (d.add (.message name body)))
      fun e _ => policy.duplicates = .reject ∧ d.scope.get? name ≠ none ∧
        e = ⟨start, .duplicateMessage name⟩ := by
  refine place.leads_held ?_
  dsimp only
  split
  · next refused =>
    simp only [Bool.and_eq_true, decide_eq_true_eq, OrderedMap.contains] at refused
    exact leads_fail ⟨refused.2, Option.isSome_iff_ne_none.1 refused.1, rfl⟩
  · next taken =>
    have free (reject : policy.duplicates = .reject) : d.scope.get? name = none := by
      simpa [OrderedMap.contains, reject] using taken
    refine leads_bind_of_ok rfl ?_
    split
    · exact ⟨free, place.offset_eq, rfl, place.sound⟩
    · exact ⟨free, place.offset_eq, rfl, place.sound⟩

theorem leads_message (tight : b.Tight) (start : b.Start o) (place : s.At o d) :
    (message policy).Leads b s (fun read => Reads policy b o d (.message read.1 read.2))
      (Stops policy b o d) := by
  refine (leads_keyword .message start place).bind ?_ fun _ _ met => .inl ⟨o, met.2, fun _ => rfl⟩
  rintro _ s₁ ⟨found, place₁⟩
  have begun : b.wordAt o ≠ [] := wordAt_ne_nil_of_keyword found
  have gives_up {p : Nat} {e : Failure} {s' : State Declared} (gaveUp : GaveUp p d e s') :
      Stops policy b o d e s' := .inl ⟨p, gaveUp, fun empty => absurd empty begun⟩
  have start₁ := tight.start_pastToken found
  refine leads_bind_of_ok rfl (leads_bind_of_ok rfl ?_)
  rw [State.moveTo_offset, place₁.pastSpace_eq start₁]
  refine (leads_string (place₁.moveTo _)).bind ?_ fun _ _ met => gives_up met.2
  rintro _ s₂ ⟨w, rfl, word, place₂⟩
  have hasWord := Buffer.has_word Token.isWord word
  have start₂ := tight.start_pastToken hasWord.holds
  refine leads_bind_of_ok rfl ?_
  rw [place₂.offset_eq]
  have first := Nat.le_of_lt (b.lt_pastToken o (.keyword .message))
  have decides (m : MessagePhrase) : Decides d.scope (Phrase.message m).tokens :=
    .phrase (.message m) (by simp) _ rfl
  refine (leads_body tight start₂ (place₂.moveTo _) w).bind ?_ ?_
  · rintro _ s₃ ⟨m, o', rfl, rfl, spelled, comma, place₃⟩
    have whole : b.Spells Token.isWord o (Phrase.message m).tokens o' :=
      ⟨.lazy rfl found, hasWord, spelled⟩
    refine (leads_declare place₃ _ _).bind (fun _ s₄ declared => leads_pure ?_) ?_
    · exact ⟨.message m, o', whole, ⟨comma, declared.1⟩, rfl, declared.2⟩
    · rintro e s' ⟨reject, _, rfl⟩
      have inside := lt_size_of_wordAt (wordAt_ne_nil_of_word word)
      exact .inr ⟨rfl, ⟨inside, reject, m.name.ne_nil, word.symm⟩, first, _, o', decides m, whole⟩
  · rintro e s' (⟨p, gaveUp⟩ | ⟨fatal, refuses, further, m, o', rfl, spelled⟩)
    · exact gives_up gaveUp
    · have second := b.lt_pastToken (b.pastToken o (.keyword .message)) (.word m.name)
      have reached := Nat.le_trans first (Nat.le_trans (Nat.le_of_lt second) further)
      exact .inr ⟨fatal, refuses, reached, _, o', decides m, .lazy rfl found, hasWord, spelled⟩

theorem leads_method (tight : b.Tight) (start : b.Start o) (place : s.At o d) :
    method.Leads b s (fun m => Reads policy b o d (.method m)) (Stops policy b o d) := by
  refine (leads_keyword .method start place).bind ?_ fun _ _ met => .inl ⟨o, met.2, fun _ => rfl⟩
  rintro _ s₁ ⟨found, place₁⟩
  have begun : b.wordAt o ≠ [] := wordAt_ne_nil_of_keyword found
  have gives_up {p : Nat} {e : Failure} {s' : State Declared} (gaveUp : GaveUp p d e s') :
      Stops policy b o d e s' := .inl ⟨p, gaveUp, fun empty => absurd empty begun⟩
  -- What stands up to a name that is not in scope decides that the method is refused there.
  have breaks {p : Nat} {s' : State Declared} (opening : Opening)
      (spelled : b.Spells Token.isWord o opening.lead p)
      (word : b.wordAt p = (Token.word opening.last).chars) (breaks : opening.BreaksIn d.scope) :
      Stops policy b o d ⟨p, .undefinedMessage opening.role opening.last.text⟩ s' := by
    have inside := lt_size_of_wordAt (wordAt_ne_nil_of_word word)
    have final : b.Spells Token.isWord p [.word opening.last] _ := ⟨Buffer.has_word _ word, rfl⟩
    have whole := (Buffer.spells_append _ _).2 ⟨p, spelled, final⟩
    exact .inr ⟨rfl, ⟨inside, opening.last.ne_nil, word.symm⟩, spelled.le, _, _,
      .opening opening breaks, whole⟩
  have start₁ := tight.start_pastToken found
  refine (leads_identifier start₁ place₁).bind ?_ fun _ _ met => gives_up met.2.2
  rintro _ s₂ ⟨name, rfl, nameAt, place₂⟩
  have hasName := Buffer.has_word Token.isWord nameAt
  have start₂ := tight.start_pastToken hasName.holds
  refine (leads_sign .openParen start₂ place₂).bind ?_ fun _ _ met => gives_up met.2
  rintro _ s₃ ⟨opened, place₃⟩
  have start₃ := tight.start_pastToken opened
  refine (leads_reference .request start₃ place₃).bind ?_ ?refused
  case refused =>
    rintro e s' (⟨_, gaveUp⟩ | ⟨x, word, missing, rfl⟩)
    · exact gives_up gaveUp
    · exact breaks (.request name x) ⟨.lazy rfl found, hasName, .lazy rfl opened, rfl⟩ word missing
  rintro request s₄ ⟨q, requestAt, requested, place₄⟩
  have hasRequest := Buffer.has_word Token.isWord requestAt
  have start₄ := tight.start_pastToken hasRequest.holds
  refine (leads_sign .closeParen start₄ place₄).bind ?_ fun _ _ met => gives_up met.2
  rintro _ s₅ ⟨closed, place₅⟩
  have start₅ := tight.start_pastToken closed
  refine (leads_sign .arrow start₅ place₅).bind ?_ fun _ _ met => gives_up met.2
  rintro _ s₆ ⟨arrow, place₆⟩
  have start₆ := tight.start_pastToken arrow
  refine (leads_reference .response start₆ place₆).bind ?_ ?refused
  case refused =>
    rintro e s' (⟨_, gaveUp⟩ | ⟨x, word, missing, rfl⟩)
    · exact gives_up gaveUp
    · exact breaks (.response name q x) ⟨.lazy rfl found, hasName, .lazy rfl opened, hasRequest,
        .lazy rfl closed, .lazy rfl arrow, rfl⟩ word ⟨⟨request, requested⟩, missing⟩
  rintro response s₇ ⟨r, responseAt, responded, place₇⟩
  have hasResponse := Buffer.has_word Token.isWord responseAt
  have start₇ := tight.start_pastToken hasResponse.holds
  refine (leads_sign .semicolon start₇ place₇).bind ?_ fun _ _ met => gives_up met.2
  rintro _ s₈ ⟨ended, place₈⟩
  refine place₈.leads_held ?_
  refine ⟨.method name q r, _, ?_, trivial, ?_, place₈.offset_eq, rfl, place₈.sound⟩
  · exact ⟨.lazy rfl found, hasName, .lazy rfl opened, hasRequest, .lazy rfl closed,
      .lazy rfl arrow, hasResponse, .lazy rfl ended, rfl⟩
  · simp [Phrase.declaration?, requested, responded]

theorem leads_primitiveType (start : b.Start o) (place : s.At o d) :
    primitiveType.Leads b s (Reads policy b o d)
      fun e s' => b.wordAt o = [] ∧ GaveUp o d e s' := by
  refine leads_map ((leads_identifier start place).imp ?_ fun _ _ met => ⟨met.1, met.2.2⟩)
  rintro text s' ⟨w, rfl, word, place'⟩
  exact ⟨.bare w, _, ⟨Buffer.has_word _ word, rfl⟩, trivial, rfl, place'⟩

theorem Reads.moveTo (tight : b.Tight) (start : b.Start o) {declaration : Declaration}
    (reads : Reads policy b o d declaration s) :
    Reads policy b o d declaration (s.moveTo (b.pastSpace s.offset)) := by
  obtain ⟨phrase, o', spelled, permitted, declared, place⟩ := reads
  exact ⟨phrase, o', spelled, permitted, declared, place.pastSpace (spelled.start tight start)⟩

theorem gaveUp_verdict {p p' entry n : Nat} {m m' : String} {e e' : Failure}
    {s' : State Declared} {event : Event} (first : GaveUp p d e s) (second : GaveUp p' d e' s') :
    ∃ q, GaveUp q d
        (Furthest.verdict b entry (some (Furthest.add (some ⟨e, [m]⟩) m' e')))
        (((s'.note event).moveTo n).moveTo entry) ∧ (q = p ∨ q = p') := by
  rw [Furthest.verdict_two]
  split
  · exact ⟨p, ⟨first.position_eq, first.recoverable, second.held_eq, second.sound⟩, .inl rfl⟩
  · split
    · exact ⟨p, ⟨first.position_eq, rfl, second.held_eq, second.sound⟩, .inl rfl⟩
    · exact ⟨p', ⟨second.position_eq, second.recoverable, second.held_eq, second.sound⟩, .inr rfl⟩

theorem leads_complexType (tight : b.Tight) (start : b.Start o) (place : s.At o d) :
    (complexType policy).Leads b s
      (fun read s' => Reads policy b o d read s' ∧ ∀ text, read ≠ .bare text)
      (Stops policy b o d) := by
  have here := place.pastSpace_eq start
  refine leads_choice_two ?_
  rw [here]
  refine leads_map ((leads_method tight start (place.moveTo o)).imp
    (fun _ _ reads => ⟨reads.moveTo tight start, by simp⟩) fun e s₁ stops => ?_)
  refine ⟨fun fatal => .inr (stops.faults fatal), fun notFatal => ?_⟩
  obtain ⟨p, gaveUp, tie⟩ := stops.gaveUp notFatal
  have place₁ := gaveUp.next (.branchFailed "method" e.position) o
  refine leads_map ((leads_message tight start place₁).imp
    (fun _ _ reads => ⟨reads.moveTo tight start, by simp⟩) fun e' s₂ stops' => ?_)
  refine ⟨fun fatal => .inr (stops'.faults fatal), fun notFatal' => ?_⟩
  obtain ⟨p', gaveUp', tie'⟩ := stops'.gaveUp notFatal'
  obtain ⟨q, gaveUpBoth, either⟩ := gaveUp_verdict gaveUp gaveUp'
  refine .inl ⟨q, gaveUpBoth, fun empty => ?_⟩
  rcases either with rfl | rfl
  · exact tie empty
  · exact tie' empty

/-- Where no name stands both branches give up at once, and that is all that can be reported of a
choice that no fault ends. -/
theorem leads_anyType (tight : b.Tight) (start : b.Start o) (unread : o < b.size)
    (place : s.At o d) :
    (anyType policy).Leads b s (Reads policy b o d) fun e _ => b.Refuses policy e := by
  have here := place.pastSpace_eq start
  refine leads_choice_two ?_
  rw [here]
  refine (leads_complexType tight start (place.moveTo o)).imp
    (fun _ _ met => met.1.moveTo tight start) fun e s₁ stops => ?_
  refine ⟨fun fatal => (stops.faults fatal).refuses, fun notFatal => ?_⟩
  obtain ⟨p, gaveUp, tie⟩ := stops.gaveUp notFatal
  have place₁ := gaveUp.next (.branchFailed "complexType" e.position) o
  refine (leads_primitiveType start place₁).imp
    (fun _ _ reads => reads.moveTo tight start) fun e' s₂ met => ?_
  obtain ⟨empty, gaveUp'⟩ := met
  refine ⟨fun fatal => absurd fatal gaveUp'.not_fatal, fun _ => ?_⟩
  -- No name stands here, so the first branch has not got further than the second.
  have first : e.position = o := by rw [gaveUp.position_eq, tie empty]
  rw [Furthest.verdict_two_tied (gaveUp'.position_eq.trans first.symm), first]
  refine ⟨unread, rfl, rfl, ?_⟩
  cases found : b.get? o with
  | none =>
    have past := (b.get?_eq_none_iff o).1 found
    omega
  | some c =>
    refine ⟨c, rfl, fun space => start.clear (space ▸ found), ?_⟩
    exact (b.endsName_tail_iff o).1 ((b.wordAt_eq_nil_iff o).1 empty) c found

theorem leads_declaration (tight : b.Tight) (start : b.Start o) (unread : o < b.size)
    (place : s.At o d) :
    (declaration policy).Leads b s (Reads policy b o d) fun e _ => b.Refuses policy e := by
  have here := place.pastSpace_eq start
  refine leads_choice_one ?_
  rw [here]
  exact (leads_anyType tight start unread (place.moveTo o)).imp
    (fun _ _ reads => reads.moveTo tight start) fun _ _ refused =>
      ⟨fun _ => refused, fun _ => refused⟩

theorem leads_rounds (tight : b.Tight) {limit : Nat} (enough : b.size ≤ o + limit)
    (start : b.Start o) (place : s.At o d) :
    (rounds policy limit).Leads b s
      (fun _ s' => ∃ (script : List Phrase) (d' : Declared),
        b.Spells Token.isWord o (scriptTokens script) b.size ∧
        Interprets policy d script d' ∧ s'.held = d')
      fun e _ => b.Refuses policy e := by
  have finished (past : b.size ≤ o) : ∃ (script : List Phrase) (d' : Declared),
      b.Spells Token.isWord o (scriptTokens script) b.size ∧
        Interprets policy d script d' ∧ s.held = d' :=
    ⟨[], d, Nat.le_antisymm start.le_size past, rfl, place.held_eq⟩
  induction limit generalizing s o d with
  | zero => exact leads_pure (finished enough)
  | succ limit ih =>
    refine leads_bind_of_ok rfl (leads_bind_of_ok rfl ?_)
    rw [place.offset_eq]
    split
    · next ended => exact leads_pure (finished (by omega))
    · next unread =>
      refine (leads_declaration tight start (by omega) place).bind ?_ fun _ _ refused => refused
      -- A phrase takes a character at least, so the guard against standing still is not met.
      rintro declaration s₁ ⟨phrase, o', spelled, permitted, declared, place₁⟩
      have further := spelled.lt (tokens_ne_nil phrase)
      have start₁ := spelled.start tight start
      refine leads_bind_of_ok rfl ?_
      rw [place₁.offset_eq, if_neg (by omega)]
      refine leads_bind_of_ok rfl ?_
      have place₂ := place₁.note declaration.event
      have rest := ih (by omega) start₁ place₂
        fun past => ⟨[], _, Nat.le_antisymm start₁.le_size past, rfl, place₂.held_eq⟩
      refine rest.imp ?_ fun _ _ refused => refused
      rintro _ s₂ ⟨script, d', spelledRest, interprets, held⟩
      exact ⟨phrase :: script, d', (Buffer.spells_append _ _).2 ⟨o', spelled, spelledRest⟩,
        ⟨declaration, permitted, declared, interprets⟩, held⟩

theorem leads_source (tight : b.Tight) (place : s.At 0 d) :
    (source policy).Leads b s
      (fun d' _ => ∃ script : List Phrase,
        b.Spells Token.isWord 0 (scriptTokens script) b.size ∧ Interprets policy d script d')
      fun e _ => b.Refuses policy e := by
  refine leads_bind_of_ok rfl ?_
  rw [place.offset_eq]
  refine (leads_rounds tight (by omega) tight.start_zero place).bind ?_ fun _ _ refused => refused
  rintro _ s' ⟨script, d', spelled, interprets, rfl⟩
  exact leads_bind_of_ok rfl (leads_bind_of_ok rfl (leads_pure ⟨script, spelled, interprets⟩))

end Grammar

end RpcSchema
