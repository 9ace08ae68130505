import RpcSchema.Proofs.Continuation

/-! Calls of one reader. The first call that has a text to read spends the reader, whether the text
is well formed or not. What that text declares stays with the reader, and every later text is
refused. A path under which nothing can be loaded is reported and counts as no call at all. -/
namespace RpcSchema

/-- A call of a reader. A call by path comes with the text that is loaded there, if one is. -/
inductive Call where
  | source (text : String)
  | named (name text : String)
  | file (path : String) (loaded : Option String)

/-- What a call answers: a failure comes alone, or with the source that it was met in. -/
inductive Answer where
  | plain (result : Except Failure Interface)
  | located (result : Except Trouble Interface)

namespace Call

def serve (reader : SchemaReader) : Call → Answer × SchemaReader
  | source text =>
    let (result, after) := reader.read text
    (.plain result, after)
  | named name text =>
    let (result, after) := reader.readNamed name text
    (.located result, after)
  | file path loaded =>
    let (result, after) := Id.run (reader.readPath (fun _ => pure loaded) path)
    (.located result, after)

def text? : Call → Option String
  | source text | named _ text => some text
  | file _ loaded => loaded

def answer (text : String) (result : Except Failure Interface) : Call → Answer
  | source _ => .plain result
  | named name _ | file name _ =>
    .located (result.mapError (.unparsed · ⟨name, (Buffer.ofSource text).text⟩))

theorem serve_of_text {call : Call} {text : String} (has : call.text? = some text)
    (reader : SchemaReader) :
    call.serve reader = (call.answer text (reader.read text).1, (reader.read text).2) := by
  have located (name : String) : reader.readNamed name text =
      ((reader.read text).1.mapError (.unparsed · ⟨name, (Buffer.ofSource text).text⟩),
        (reader.read text).2) := by
    unfold SchemaReader.readNamed
    cases read : reader.read text with
    | mk result after => cases result <;> rfl
  cases call with
  | source _ =>
    cases has
    rfl
  | named name _ =>
    cases has
    rw [serve, located]
    rfl
  | file name _ =>
    cases has
    rw [serve, SchemaReader.readPath]
    simp only [pure_bind, located]
    rfl

theorem serve_of_no_text {call : Call} (lacks : call.text? = none) (reader : SchemaReader) :
    ∃ path, call = .file path none ∧
      call.serve reader = (.located (.error (.unreadable path)), reader) := by
  cases call with
  | source _ | named _ _ => cases lacks
  | file path _ =>
    cases lacks
    exact ⟨path, rfl, rfl⟩

end Call

namespace SchemaReader

theorem readPath_eq_map {m : Type → Type} [Monad m] [LawfulMonad m]
    (load : String → m (Option String)) (reader : SchemaReader) (path : String) :
    reader.readPath load path =
      (fun loaded => Id.run (reader.readPath (fun _ => pure loaded) path)) <$> load path := by
  rw [map_eq_pure_bind]
  refine bind_congr fun loaded => ?_
  cases loaded <;> rfl

def after (reader : SchemaReader) (calls : List Call) : SchemaReader :=
  calls.foldl (fun reader call => (call.serve reader).2) reader

def spentBy (policy : Policy) (text : String) : SchemaReader :=
  ⟨policy, true, (readBuffer policy (Buffer.ofSource text)).1.toOption⟩

theorem read_of_fresh (policy : Policy) (text : String) :
    (fresh policy).read text =
      ((readBuffer policy (Buffer.ofSource text)).1.map Declared.interface,
        spentBy policy text) := by
  rw [read_fresh, spentBy, readSource_eq_readBuffer]
  cases (readBuffer policy (Buffer.ofSource text)).1 with
  | ok d => rfl
  | error e => rfl

theorem serve_of_spent {call : Call} {reader : SchemaReader} (spent : reader.spent = true) :
    (call.serve reader).2 = reader := by
  cases has : call.text? with
  | none =>
    obtain ⟨path, _, served⟩ := call.serve_of_no_text has reader
    rw [served]
  | some text => rw [call.serve_of_text has, read_of_spent spent]

theorem after_of_spent {reader : SchemaReader} (spent : reader.spent = true) (calls : List Call) :
    reader.after calls = reader := by
  induction calls with
  | nil => rfl
  | cons call rest ih => rw [after, List.foldl_cons, serve_of_spent spent, ← after, ih]

/-- A reader stays fresh until a call has a text to read, and is as this text has left it ever
after. -/
theorem after_fresh (policy : Policy) (calls : List Call) :
    (fresh policy).after calls =
      match calls.findSome? Call.text? with
      | none => fresh policy
      | some first => spentBy policy first := by
  induction calls with
  | nil => rfl
  | cons call rest ih =>
    rw [after, List.foldl_cons, List.findSome?_cons, ← after]
    cases has : call.text? with
    | none =>
      obtain ⟨path, _, served⟩ := call.serve_of_no_text has (fresh policy)
      rw [served, ih]
    | some text =>
      rw [call.serve_of_text has, read_of_fresh]
      exact after_of_spent rfl rest

end SchemaReader

/-- The first call that has a text to read is answered as reading its normal form, and every call
with a text after that is refused. A path that cannot be loaded is reported and changes nothing. -/
theorem reader_serves_one_text (policy : Policy) (before : List Call) (call : Call) :
    let reader := (SchemaReader.fresh policy).after before
    reader = (match before.findSome? Call.text? with
      | none => .fresh policy
      | some first => ⟨policy, true, (readBuffer policy (Buffer.ofSource first)).1.toOption⟩) ∧
    (∀ path, call = .file path none →
      call.serve reader = (.located (.error (.unreadable path)), reader)) ∧
    ∀ text, call.text? = some text →
      call.serve reader =
        match before.findSome? Call.text? with
        | none =>
          let result := (readBuffer policy (Buffer.ofSource text)).1
          (call.answer text (result.map Declared.interface), ⟨policy, true, result.toOption⟩)
        | some _ => (call.answer text (.error ⟨0, .alreadySpent⟩), reader) := by
  intro reader
  have left : reader = _ := SchemaReader.after_fresh policy before
  refine ⟨left, ?_, ?_⟩
  · rintro path rfl
    rfl
  · intro text has
    rw [call.serve_of_text has]
    cases first : before.findSome? Call.text? with
    | none =>
      rw [first] at left
      rw [left, SchemaReader.read_of_fresh]
      rfl
    | some _ =>
      rw [first] at left
      have spent : reader.spent = true := by rw [left]; rfl
      rw [SchemaReader.read_of_spent spent]

end RpcSchema
