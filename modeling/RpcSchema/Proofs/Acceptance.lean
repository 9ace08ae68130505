import RpcSchema.Proofs.Completeness
import RpcSchema.SchemaReader

/-! What a reader answers. Every layout of a script is accepted. The normal form of every source
that is accepted is a script, and the answer is what the script says. Every source that is refused
is refused at a character of its normal form, for one of four causes. -/
namespace RpcSchema

variable {policy : Policy} {source : String}

theorem leads_readSource (policy : Policy) (source : String) :
    (Grammar.source policy).Leads (Buffer.ofSource source)
      ((State.initial .nothing).note (.normalized (Buffer.ofSource source).size))
      (fun d _ => ∃ script : List Phrase,
        (Buffer.ofSource source).Spells Token.isWord 0 (scriptTokens script)
          (Buffer.ofSource source).size ∧ Interprets policy .nothing script d)
      fun e _ => (Buffer.ofSource source).Refuses policy e :=
  Grammar.leads_source (Buffer.tight_ofSource source) ((State.at_initial _).note _)

theorem readSource_layout {script : List Phrase} (layout : IsLayout script source.toList)
    (resolved : Resolved script) :
    ∃ d, (readSource .lenient source).1 = .ok d ∧ Describes script d := by
  obtain ⟨d, interprets⟩ := describes_nil.interprets_of_resolved resolved
  have spelled := Buffer.spells_of_written (written_normalForm layout) (Nat.zero_le _)
    (Buffer.tail_ofSource source)
  have gives := Grammar.gives_source (s := (State.initial .nothing).note
      (.normalized (Buffer.ofSource source).size)) (Buffer.tight_ofSource source) spelled interprets
    ((State.at_initial _).note _)
  refine ⟨d, ?_, (describes_nil.interprets interprets).1⟩
  cases ran : readSource .lenient source with
  | mk result s' =>
    cases result with
    | ok d' => rw [gives.of_ok ran]
    | error e => exact (gives.of_error ran).elim

theorem readSource_ok {d : Declared} (read : (readSource policy source).1 = .ok d) :
    ∃ script : List Phrase,
      Written Token.isWord (scriptTokens script) (normalForm source.toList) ∧
        Interprets policy .nothing script d := by
  obtain ⟨script, spelled, interprets⟩ :=
    (leads_readSource policy source).of_ok (Prod.ext read rfl)
  have written := Buffer.written_of_spells (Buffer.tight_ofSource source) spelled
  rw [Buffer.tail_ofSource] at written
  exact ⟨script, written, interprets⟩

theorem readSource_error {e : Failure} (read : (readSource policy source).1 = .error e) :
    (Buffer.ofSource source).Refuses policy e :=
  (leads_readSource policy source).of_error (Prod.ext read rfl)

/-- Every layout of a script whose methods name only messages declared before them is accepted, with
the methods of the script in order, each with the bodies that its messages had where it stands. -/
theorem layout_is_accepted {script : List Phrase} (layout : IsLayout script source.toList)
    (resolved : Resolved script) :
    ∃ scope : Scope,
      (SchemaReader.fresh .lenient).read source =
        (.ok ⟨methodsOf script⟩, ⟨.lenient, true, some ⟨⟨methodsOf script⟩, scope⟩⟩) ∧
      (methodsOf script).map Method.name = script.filterMap Phrase.methodName? ∧
      ∀ name, scope.get? name = latestBody script name := by
  obtain ⟨⟨⟨methods⟩, scope⟩, ran, described⟩ := readSource_layout layout resolved
  cases described.methods
  refine ⟨scope, ?_, names_methodsAfter resolved, described.bodies⟩
  rw [SchemaReader.read_fresh, ran]
  rfl

/-- All names are keywords here, a field is repeated, and the newline of a comment is all that
stands between a comma and a brace. -/
theorem layout_is_accepted_of_keyword_names :
    let word : Word := ⟨"message", by decide, List.all_eq_true.1 (by decide)⟩
    let script : List Phrase :=
      [.message ⟨word, [⟨word, word⟩, ⟨word, word⟩], true, by simp⟩, .method word word word,
        .bare word]
    let source := "message message\x7bmessage:message,message:message,#\n\x7d\tmethod " ++
      "message(message)->message;message"
    IsLayout script source.toList ∧ Resolved script ∧
      ∃ scope : Scope,
        (SchemaReader.fresh .lenient).read source =
          (.ok ⟨methodsOf script⟩, ⟨.lenient, true, some ⟨⟨methodsOf script⟩, scope⟩⟩) ∧
        (methodsOf script).map Method.name = script.filterMap Phrase.methodName? ∧
        ∀ name, scope.get? name = latestBody script name := by
  intro word script source
  have laid : LaidOut (scriptTokens script) _ :=
    .cons _ _ [.blank ' ' rfl] (by decide) <| .cons _ _ [] (by decide) <|
    .cons _ _ [] (by decide) <| .cons _ _ [] (by decide) <| .cons _ _ [] (by decide) <|
    .cons _ _ [] (by decide) <| .cons _ _ [] (by decide) <| .cons _ _ [] (by decide) <|
    .cons _ _ [] (by decide) <| .cons _ _ [] (by decide) <|
    .cons _ _ [.comment [] (by decide)] (by decide) <| .cons _ _ [.blank '\t' rfl] (by decide) <|
    .cons _ _ [.blank ' ' rfl] (by decide) <| .cons _ _ [] (by decide) <|
    .cons _ _ [] (by decide) <| .cons _ _ [] (by decide) <| .cons _ _ [] (by decide) <|
    .cons _ _ [] (by decide) <| .cons _ _ [] (by decide) <| .cons _ _ [] (by decide) <|
    .last _ []
  have layout : IsLayout script source.toList := ⟨[], _, laid, by decide +kernel⟩
  have resolved : Resolved script := by
    have declared : Declares [script[0]] word := ⟨_, List.mem_singleton.2 rfl, rfl⟩
    exact ⟨trivial, ⟨declared, declared⟩, trivial, trivial⟩
  exact ⟨layout, resolved, layout_is_accepted layout resolved⟩

/-- An accepted source is a script. Its tokens make up the whole normal form, and each method holds
the bodies that its messages had where it is written. -/
theorem accepted_source_is_script {file : Interface} {after : SchemaReader}
    (accepted : (SchemaReader.fresh policy).read source = (.ok file, after)) :
    ∃ (script : List Phrase) (scope : Scope),
      Written Token.isWord (scriptTokens script) (normalForm source.toList) ∧
      (∀ m, .message m ∈ script → m.comma = true → policy.trailingComma = .allow) ∧
      Resolved script ∧
      file.methods = methodsOf script ∧
      (∀ name, scope.get? name = latestBody script name) ∧
      after = ⟨policy, true, some ⟨file, scope⟩⟩ := by
  rw [SchemaReader.read_fresh] at accepted
  cases read : (readSource policy source).1 with
  | error e =>
    rw [read] at accepted
    cases accepted
  | ok d =>
    rw [read] at accepted
    cases accepted
    obtain ⟨script, written, interprets⟩ := readSource_ok read
    obtain ⟨described, resolved⟩ := describes_nil.interprets interprets
    exact ⟨script, d.scope, written, fun m => comma_of_interprets interprets, resolved,
      described.methods, described.bodies, rfl⟩

theorem accepted_source_is_script_of_keyword_names :
    let source := "message message\x7ba:b, #\n\x7dx methodmethod(message)->message;"
    ∃ file after, (SchemaReader.fresh .lenient).read source = (.ok file, after) ∧
      ∃ (script : List Phrase) (scope : Scope),
        Written Token.isWord (scriptTokens script) (normalForm source.toList) ∧
        (∀ m, .message m ∈ script → m.comma = true → Policy.lenient.trailingComma = .allow) ∧
        Resolved script ∧
        file.methods = methodsOf script ∧
        (∀ name, scope.get? name = latestBody script name) ∧
        after = ⟨.lenient, true, some ⟨file, scope⟩⟩ := by
  intro source
  have accepted : ((SchemaReader.fresh .lenient).read source).1.isOk = true := by decide +kernel
  match read : (SchemaReader.fresh .lenient).read source with
  | (.ok file, after) => exact ⟨file, after, rfl, accepted_source_is_script read⟩
  | (.error e, after) =>
    rw [read] at accepted
    cases accepted

/-- A source that is not accepted is refused at a character of its normal form: where no phrase can
start, at a name that may not stand there, or at a brace behind a comma that may not. -/
theorem refused_source_is_explained (policy : Policy) (source : String) :
    (∃ file, ((SchemaReader.fresh policy).read source).1 = .ok file) ∨
      ∃ e, ((SchemaReader.fresh policy).read source).1 = .error e ∧
        (Buffer.ofSource source).Refuses policy e := by
  rw [SchemaReader.read_fresh]
  cases read : (readSource policy source).1 with
  | ok d => exact .inl ⟨d.interface, rfl⟩
  | error e => exact .inr ⟨e, rfl, readSource_error read⟩

end RpcSchema
