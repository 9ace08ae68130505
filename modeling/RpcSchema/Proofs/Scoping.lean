import RpcSchema.Proofs.Acceptance

/-! Names are resolved as soon as they are read. Behind a script that its policy allows, a method
that names a message which is not declared is refused at that name, whatever comes after it. -/
namespace RpcSchema

def Phrase.messageName? : Phrase → Option String
  | message m => some m.name.text
  | method _ _ _ | bare _ => none

/-- A policy lets a script stand: commas before closing braces and repeated messages only where it
takes these liberties, and methods that name what is declared before them. -/
structure Legal (policy : Policy) (script : List Phrase) : Prop where
  commas : ∀ m, .message m ∈ script → m.comma = true → policy.trailingComma = .allow
  names : policy.duplicates = .reject → (script.filterMap Phrase.messageName?).Nodup
  resolved : Resolved script

namespace Opening

/-- The last name is not declared, and a request before it is. -/
def BreaksOff (script : List Phrase) : Opening → Prop
  | request _ x => ¬Declares script x
  | response _ q x => Declares script q ∧ ¬Declares script x

end Opening

/-- A gap, and then the tokens of a script and of a method up to a name, with a gap after each. -/
def IsOpenLayout (script : List Phrase) (opening : Opening) (source : List Char) : Prop :=
  ∃ (lead : Gap) (text : List Char),
    LaidOut (scriptTokens script ++ (opening.lead ++ [.word opening.last])) text ∧
      source = lead.chars ++ text

theorem mem_messageNames {script : List Phrase} {name : Word} (declares : Declares script name) :
    name.text ∈ script.filterMap Phrase.messageName? := by
  obtain ⟨m, member, same⟩ := declares
  exact List.mem_filterMap.2 ⟨.message m, member, congrArg some same⟩

namespace Describes

variable {script : List Phrase} {d : Declared}

theorem get?_eq_none (h : Describes script d) {name : Word} (absent : ¬Declares script name) :
    d.scope.get? name.text = none := by
  rw [h.bodies]
  cases found : latestBody script name.text with
  | none => rfl
  | some body => exact absurd ((declares_iff script name).2 ⟨body, found⟩) absent

theorem resolve_eq_none (h : Describes script d) {name : Word} (absent : ¬Declares script name) :
    Scope.resolve d.scope name.text = none := by
  rw [Scope.resolve, h.get?_eq_none absent]
  rfl

theorem exists_resolve (h : Describes script d) {name : Word} (declares : Declares script name) :
    ∃ reference, Scope.resolve d.scope name.text = some reference := by
  obtain ⟨body, found⟩ := (declares_iff script name).1 declares
  exact ⟨⟨name.text, body⟩, by rw [h.resolve, found]; rfl⟩

theorem breaksIn (h : Describes script d) {opening : Opening}
    (breaksOff : opening.BreaksOff script) : opening.BreaksIn d.scope := by
  cases opening with
  | request name x => exact h.resolve_eq_none breaksOff
  | response name q x => exact ⟨h.exists_resolve breaksOff.1, h.resolve_eq_none breaksOff.2⟩

theorem exists_interprets (h : Describes script d) {policy : Policy} {rest : List Phrase}
    (commas : ∀ m, .message m ∈ rest → m.comma = true → policy.trailingComma = .allow)
    (names : policy.duplicates = .reject →
      ((script ++ rest).filterMap Phrase.messageName?).Nodup)
    (resolved : ResolvedAfter script rest) : ∃ d', Interprets policy d rest d' := by
  induction rest generalizing script d with
  | nil => exact ⟨d, rfl⟩
  | cons phrase rest ih =>
    obtain ⟨declaration, declared⟩ := h.declaration?_of_resolved resolved.1
    have permitted : phrase.Permitted policy d.scope := by
      cases phrase with
      | message m =>
        refine ⟨commas m List.mem_cons_self, fun reject => h.get?_eq_none fun declares => ?_⟩
        have distinct := names reject
        rw [List.filterMap_append, List.nodup_append] at distinct
        exact distinct.2.2 _ (mem_messageNames declares) m.name.text List.mem_cons_self rfl
      | method name q r => trivial
      | bare token => trivial
    obtain ⟨d', read⟩ := ih (h.add declared)
      (fun m member => commas m (List.mem_cons_of_mem _ member)) (by simpa using names) resolved.2
    exact ⟨d', declaration, permitted, declared, read⟩

end Describes

namespace Grammar

open Rule

variable {policy : Policy} {b : Buffer} {s : State Declared} {o o' : Nat} {d : Declared}

abbrev FailsWith {α : Type} (r : Production α) (b : Buffer) (s : State Declared) (e : Failure) :
    Prop :=
  r.Leads b s (fun _ _ => False) fun e' _ => e' = e

theorem FailsWith.choice {α : Type} {r : Production α} {name : String}
    {rest : List (Branch Declared α)} {e : Failure} (fatal : e.isFatal = true)
    (fails : FailsWith r b (s.moveTo (b.pastSpace s.offset)) e) :
    FailsWith (Rule.choice (⟨name, r⟩ :: rest)) b s e := by
  refine leads_choice (leads_firstOf_cons (fails.imp (fun _ _ => False.elim) ?_))
  rintro _ t rfl
  exact ⟨fun _ => rfl, fun notFatal => by rw [fatal] at notFatal; cases notFatal⟩

theorem failsWith_reference {w : Word} (role : Role) (word : b.wordAt o = (Token.word w).chars)
    (missing : Scope.resolve d.scope w.text = none) (start : b.Start o) (place : s.At o d) :
    FailsWith (reference role) b s ⟨o, .undefinedMessage role w.text⟩ := by
  refine (leads_reference role start place).imp ?_ ?_
  · rintro found t ⟨w', word', resolved, _⟩
    cases Word.eq_of_chars (word'.symm.trans word)
    cases missing.symm.trans resolved
  · rintro e t (⟨empty, _⟩ | ⟨w', word', _, rfl⟩)
    · exact absurd empty (wordAt_ne_nil_of_word word)
    · cases Word.eq_of_chars (word'.symm.trans word)
      rfl

theorem failsWith_method (tight : b.Tight) {opening : Opening} (breaks : opening.BreaksIn d.scope)
    (spelled : b.Spells Token.isWord o opening.lead o')
    (word : b.wordAt o' = (Token.word opening.last).chars) (start : b.Start o)
    (place : s.At o d) :
    FailsWith method b s ⟨o', .undefinedMessage opening.role opening.last.text⟩ := by
  cases opening with
  | request name x =>
    obtain ⟨hasKeyword, hasName, hasOpen, rfl⟩ := spelled
    have start₁ := tight.start_pastToken hasKeyword.holds
    have start₂ := tight.start_pastToken hasName.holds
    have start₃ := tight.start_pastToken hasOpen.holds
    refine (gives_keyword hasKeyword.holds start place).bind fun _ s₁ place₁ => ?_
    refine (gives_identifier (hasName.wordAt rfl rfl) start₁ place₁).bind fun _ s₂ read => ?_
    refine (gives_sign hasOpen.holds start₂ read.2).bind fun _ s₃ place₃ => ?_
    exact (failsWith_reference .request word breaks start₃ place₃).bind
      (fun _ _ => False.elim) fun _ _ => id
  | response name q x =>
    obtain ⟨hasKeyword, hasName, hasOpen, hasRequest, hasClose, hasArrow, rfl⟩ := spelled
    have start₁ := tight.start_pastToken hasKeyword.holds
    have start₂ := tight.start_pastToken hasName.holds
    have start₃ := tight.start_pastToken hasOpen.holds
    have start₄ := tight.start_pastToken hasRequest.holds
    have start₅ := tight.start_pastToken hasClose.holds
    have start₆ := tight.start_pastToken hasArrow.holds
    -- The request is in scope, so the run comes to the response.
    obtain ⟨⟨request, requested⟩, missing⟩ := breaks
    refine (gives_keyword hasKeyword.holds start place).bind fun _ s₁ place₁ => ?_
    refine (gives_identifier (hasName.wordAt rfl rfl) start₁ place₁).bind fun _ s₂ read => ?_
    refine (gives_sign hasOpen.holds start₂ read.2).bind fun _ s₃ place₃ => ?_
    refine (gives_reference .request (hasRequest.wordAt rfl rfl) requested start₃ place₃).bind
      fun _ s₄ read => ?_
    refine (gives_sign hasClose.holds start₄ read.2).bind fun _ s₅ place₅ => ?_
    refine (gives_sign hasArrow.holds start₅ place₅).bind fun _ s₆ place₆ => ?_
    exact (failsWith_reference .response word missing start₆ place₆).bind
      (fun _ _ => False.elim) fun _ _ => id

theorem failsWith_declaration (start : b.Start o) {e : Failure} (fatal : e.isFatal = true)
    (fails : ∀ s, s.At o d → FailsWith method b s e) (place : s.At o d) :
    FailsWith (declaration policy) b s e := by
  refine FailsWith.choice fatal (FailsWith.choice fatal (FailsWith.choice fatal (leads_map ?_)))
  exact fails _ (((place.pastSpace start).pastSpace start).pastSpace start)

theorem failsWith_rounds {limit : Nat} (enough : b.size ≤ o + limit) (unread : o < b.size)
    {e : Failure} (fails : FailsWith (declaration policy) b s e) (place : s.At o d) :
    FailsWith (rounds policy limit) b s e := by
  cases limit with
  | zero => omega
  | succ limit =>
    refine leads_bind_of_ok rfl (leads_bind_of_ok rfl ?_)
    rw [place.offset_eq, if_neg (by omega)]
    exact fails.bind (fun _ _ => False.elim) fun _ _ => id

theorem alone_of_lead {opening : Opening}
    (spelled : b.Spells Token.isName o opening.lead o') : b.Alone o := by
  cases opening with
  | request name x =>
    obtain ⟨has, hasName, _⟩ := spelled
    exact Buffer.alone_of_has rfl has (Buffer.noSign_of_holds rfl hasName.holds)
  | response name q x =>
    obtain ⟨has, hasName, _⟩ := spelled
    exact Buffer.alone_of_has rfl has (Buffer.noSign_of_holds rfl hasName.holds)

theorem failsWith_source (tight : b.Tight) {script : List Phrase} {opening : Opening} {m p : Nat}
    (spelled : b.Spells Token.isName 0 (scriptTokens script) m)
    (lead : b.Spells Token.isName m opening.lead p)
    (word : b.wordAt p = (Token.word opening.last).chars) {d' : Declared}
    (interprets : Interprets policy d script d') (described : Describes script d')
    (breaksOff : opening.BreaksOff script) (place : s.At 0 d) :
    FailsWith (source policy) b s ⟨p, .undefinedMessage opening.role opening.last.text⟩ := by
  have start := spelled.start tight tight.start_zero
  have unread := Nat.lt_of_le_of_lt lead.le (lt_size_of_wordAt (wordAt_ne_nil_of_word word))
  have lead' := lead.mono fun _ => Token.isName_of_isWord
  refine leads_bind_of_ok rfl ?_
  rw [place.offset_eq]
  refine Leads.bind (leads_rounds_of_spells tight (by omega) spelled (alone_of_lead lead)
    interprets tight.start_zero place fun limit s enough place => ?_)
    (fun _ _ => False.elim) fun _ _ => id
  refine failsWith_rounds enough unread (failsWith_declaration start rfl (fun s place => ?_) place)
    place
  exact failsWith_method tight (described.breaksIn breaksOff) lead' word start place

end Grammar

theorem readSource_of_fails {policy : Policy} {source : String} {e : Failure}
    (fails : ∀ s : State Declared, s.At 0 .nothing →
      Grammar.FailsWith (Grammar.source policy) (Buffer.ofSource source) s e) :
    (readSource policy source).1 = .error e := by
  have met := fails ((State.initial .nothing).note (.normalized (Buffer.ofSource source).size))
    ((State.at_initial _).note _)
  cases read : readSource policy source with
  | mk result t =>
    cases result with
    | ok d => exact (met.of_ok read).elim
    | error e => rw [met.of_error read]

/-- Whatever comes after it, an open layout is the beginning of the normal form. The tokens of the
script and the method are spelled there, and the last name stands where it ends. -/
theorem IsOpenLayout.spells {script : List Phrase} {opening : Opening} {opened : List Char}
    (layout : IsOpenLayout script opening opened) (rest : List Char) :
    let b := Buffer.ofSource (String.ofList (opened ++ rest))
    normalForm opened <+: normalForm (opened ++ rest) ∧
      ∃ m p, b.Spells Token.isName 0 (scriptTokens script) m ∧
        b.Spells Token.isName m opening.lead p ∧
        p + opening.last.text.length = (normalForm opened).length ∧
        b.tail p = (Token.word opening.last).chars ++
          (normalForm (opened ++ rest)).drop (normalForm opened).length := by
  intro b
  obtain ⟨lead, text, laid, rfl⟩ := layout
  have written := written_of_lead lead laid
  -- The layout ends with a name, so there is a token in it.
  have behind : normalForm (lead.chars ++ text) <+: normalForm (lead.chars ++ text ++ rest) := by
    obtain ⟨t, ts, tokens⟩ := List.exists_cons_of_ne_nil (List.append_ne_nil_of_right_ne_nil
      (scriptTokens script) (List.append_ne_nil_of_right_ne_nil opening.lead
        (List.cons_ne_nil (.word opening.last) [])))
    rw [tokens] at laid
    exact normalForm_append lead laid rest
  obtain ⟨more, split⟩ := behind
  have here : b.tail 0 = normalForm (lead.chars ++ text) ++ more := by
    rw [Buffer.tail_ofSource, String.toList_ofList, split]
  rw [← List.append_assoc] at written
  obtain ⟨p, later, spelled, final, last⟩ := Buffer.spells_of_written_append written here
  cases final
  obtain ⟨m, phrases, leading⟩ := (Buffer.spells_append _ _).1 spelled
  refine ⟨⟨more, split⟩, m, p, phrases, leading, ?_, by rw [last, ← split, List.drop_left]⟩
  have whole := congrArg List.length here
  have left := congrArg List.length last
  have some := List.length_pos_iff.2 opening.last.ne_nil
  simp only [Buffer.length_tail, Token.chars, List.length_append, Nat.sub_zero] at whole left
  rw [← String.length_toList]
  omega

/-- Behind a script that the policy allows, a method is refused at the first name that is not
declared, as soon as this name has ended and whatever comes after it. -/
theorem undeclared_name_is_refused_at_once {policy : Policy} {script : List Phrase}
    {opening : Opening} {opened : List Char} (legal : Legal policy script)
    (layout : IsOpenLayout script opening opened) (breaksOff : opening.BreaksOff script)
    (rest : List Char)
    (ends : EndsName ((normalForm (opened ++ rest)).drop (normalForm opened).length)) :
    let source := String.ofList (opened ++ rest)
    normalForm opened <+: normalForm (opened ++ rest) ∧
      ∃ p, p + opening.last.text.length = (normalForm opened).length ∧
        (Buffer.ofSource source).wordAt p = opening.last.text.toList ∧
        ((SchemaReader.fresh policy).read source).1 =
          .error ⟨p, .undefinedMessage opening.role opening.last.text⟩ := by
  intro source
  obtain ⟨behind, m, p, phrases, leading, length, last⟩ := layout.spells rest
  have word : (Buffer.ofSource source).wordAt p = (Token.word opening.last).chars := by
    rw [Buffer.wordAt, last]
    exact takeWhile_append_of_endsName opening.last.named ends
  obtain ⟨d, interprets⟩ := describes_nil.exists_interprets legal.commas legal.names legal.resolved
  refine ⟨behind, p, length, word, ?_⟩
  rw [SchemaReader.read_fresh, readSource_of_fails fun _ => Grammar.failsWith_source
    (Buffer.tight_ofSource source) phrases leading word interprets
    (describes_nil.interprets interprets).1 breaksOff]

/-- A bare word of the same name declares nothing, and the message that declares it comes too
late. -/
theorem undeclared_name_is_refused_at_once_of_later_message :
    let word : Word := ⟨"message", by decide, List.all_eq_true.1 (by decide)⟩
    let late : Word := ⟨"b", by decide, List.all_eq_true.1 (by decide)⟩
    let script : List Phrase := [.message ⟨word, [⟨late, word⟩], true, by simp⟩, .bare late]
    let opening : Opening := .response word word late
    let opened := "message message\x7bb:message,#\n\x7db method message(message)->b".toList
    let rest := "\tmessage b\x7b\x7d".toList
    let source := String.ofList (opened ++ rest)
    Legal ⟨.reject, .allow⟩ script ∧ IsOpenLayout script opening opened ∧
      opening.BreaksOff script ∧
      EndsName ((normalForm (opened ++ rest)).drop (normalForm opened).length) ∧
      normalForm opened <+: normalForm (opened ++ rest) ∧
      ∃ p, p + opening.last.text.length = (normalForm opened).length ∧
        (Buffer.ofSource source).wordAt p = opening.last.text.toList ∧
        ((SchemaReader.fresh ⟨.reject, .allow⟩).read source).1 =
          .error ⟨p, .undefinedMessage opening.role opening.last.text⟩ := by
  intro word late script opening opened rest source
  have laid : LaidOut (scriptTokens script ++ (opening.lead ++ [.word opening.last])) _ :=
    .cons _ _ [.blank ' ' rfl] (by decide) <| .cons _ _ [] (by decide) <|
    .cons _ _ [] (by decide) <| .cons _ _ [] (by decide) <| .cons _ _ [] (by decide) <|
    .cons _ _ [] (by decide) <| .cons _ _ [.comment [] (by decide)] (by decide) <|
    .cons _ _ [] (by decide) <| .cons _ _ [.blank ' ' rfl] (by decide) <|
    .cons _ _ [.blank ' ' rfl] (by decide) <| .cons _ _ [] (by decide) <|
    .cons _ _ [] (by decide) <| .cons _ _ [] (by decide) <| .cons _ _ [] (by decide) <|
    .cons _ _ [] (by decide) <| .last _ []
  have layout : IsOpenLayout script opening opened := ⟨[], _, laid, by decide +kernel⟩
  have legal : Legal ⟨.reject, .allow⟩ script :=
    ⟨fun _ _ _ => rfl, fun _ => by decide, trivial, trivial, trivial⟩
  have declared : Declares script word := ⟨_, List.mem_cons_self, rfl⟩
  have undeclared : ¬Declares script late := by
    rintro ⟨m, member, same⟩
    simp only [script, List.mem_cons, List.not_mem_nil, or_false, reduceCtorEq,
      Phrase.message.injEq] at member
    subst member
    exact absurd same (by decide)
  have breaksOff : opening.BreaksOff script := ⟨declared, undeclared⟩
  have behind : ((normalForm (opened ++ rest)).drop (normalForm opened).length).head? =
      some ' ' := by decide +kernel
  have ends : EndsName ((normalForm (opened ++ rest)).drop (normalForm opened).length) := by
    intro c first
    cases behind.symm.trans first
    rfl
  exact ⟨legal, layout, breaksOff, ends,
    undeclared_name_is_refused_at_once legal layout breaksOff rest ends⟩

end RpcSchema
