import RpcSchema.Grammar

/-! Programs of rules. A program names rules, each a row of steps that stops at its first failure;
its value is the row of the values of its steps. Steps read characters and keywords, choose between
rules, call them, move the offset between marks, and use the productions of the grammar. -/
namespace RpcSchema

inductive Symbol where
  | declaration
  | anyType
  | complexType
  | primitiveType
  | string
  | pair
  | body
  | message
  | method
deriving DecidableEq, Repr

inductive Value where
  | nothing
  | flag (value : Bool)
  | number (value : Int)
  | char (value : Char)
  | text (value : String)
  | row (values : List Value)
  | declaration (value : Declaration)
  | pair (name type : String)
  | body (value : Body)
  | message (name : String) (body : Body)
  | method (value : Method)

namespace Value

def ofOption {α : Type} (wrap : α → Value) : Option α → Value
  | some a => wrap a
  | none => nothing

end Value

def Symbol.rule (policy : Policy) : Symbol → Rule Declared Value
  | declaration => Value.declaration <$> Grammar.declaration policy
  | anyType => Value.declaration <$> Grammar.anyType policy
  | complexType => Value.declaration <$> Grammar.complexType policy
  | primitiveType => Value.declaration <$> Grammar.primitiveType
  | string => Value.text <$> Grammar.string
  | pair => (fun read => Value.pair read.1 read.2) <$> Grammar.pair
  | body => Value.body <$> Grammar.body policy
  | message => (fun read => Value.message read.1 read.2) <$> Grammar.message policy
  | method => Value.method <$> Grammar.method

inductive Step where
  | char (spec : Option String)
  | tryChar (spec : Option String)
  | skipSpace
  | keyword (literals : List String)
  | tryKeyword (literals : List String)
  | choice (rules : List String)
  | tryChoice (rules : List String)
  | call (rule : String)
  | fail (failure : Failure)
  | symbol (symbol : Symbol)
  | peek
  | advance
  | skip (count : Nat)
  | startsWith (literal : String)
  | position
  | mark (name : String)
  | rewind (name : String)
deriving DecidableEq, Repr

structure Program where
  rules : List (String × List Step)

/-- What a program keeps: the declarations read and the offsets that have been marked. -/
structure Bench where
  declared : Declared
  marks : List (String × Nat)
deriving DecidableEq

namespace Program

def production {α : Type} (r : Rule Declared α) : Rule Bench α :=
  Rule.within Bench.declared (fun declared bench => { bench with declared }) r

def broken {α : Type} (reason : String) : Rule Bench α := do
  Rule.fail ⟨← Rule.offset, .internal reason⟩

def setMark (name : String) : Rule Bench Value := do
  let offset ← Rule.offset
  let bench ← Rule.held
  Rule.setHeld { bench with marks := (name, offset) :: bench.marks }
  return .number offset

def rewind (name : String) : Rule Bench Value := do
  match (← Rule.held).marks.lookup name with
  | some offset =>
    Rule.moveTo offset
    return .number offset
  | none => broken ("no mark named " ++ name)

/-- One step, given what calling a rule does. -/
def step (policy : Policy) (call : String → Rule Bench Value) : Step → Rule Bench Value
  | .char spec => Value.char <$> Rule.char spec
  | .tryChar spec => Value.ofOption .char <$> Rule.tryChar spec
  | .skipSpace => (fun _ => .nothing) <$> (Rule.skipSpace : Rule Bench Unit)
  | .keyword literals => Value.text <$> Rule.keyword literals
  | .tryKeyword literals => Value.ofOption .text <$> Rule.tryKeyword literals
  | .choice rules => Rule.choice (rules.map fun name => ⟨name, call name⟩)
  | .tryChoice rules =>
    Value.ofOption id <$> Rule.tryChoice (rules.map fun name => ⟨name, call name⟩)
  | .call rule => call rule
  | .fail failure => Rule.fail failure
  | .symbol symbol => production (symbol.rule policy)
  | .peek => Value.ofOption .char <$> Rule.peek
  | .advance => Value.ofOption .char <$> Rule.advance
  | .skip count => (fun _ => .nothing) <$> (Rule.skip count : Rule Bench Unit)
  | .startsWith literal => Value.flag <$> Rule.startsWith literal
  | .position => Value.number <$> Rule.position
  | .mark name => setMark name
  | .rewind name => rewind name

def steps (policy : Policy) (call : String → Rule Bench Value) : List Step → Rule Bench (List Value)
  | [] => pure []
  | first :: rest => do
    let value ← step policy call first
    return value :: (← steps policy call rest)

/-- Runs a rule by name; rules call each other at most `depth` deep. -/
def call (program : Program) (policy : Policy) : (depth : Nat) → String → Rule Bench Value
  | 0, _ => broken "rules are nested too deep"
  | depth + 1, name =>
    match program.rules.lookup name with
    | some body => Value.row <$> steps policy (program.call policy depth) body
    | none => broken ("no rule named " ++ name)

def depthLimit : Nat := 1000000

/-- The outcome of each step, with the state behind it. Steps go on after a failure. -/
def trail (program : Program) (policy : Policy) (depth : Nat) (b : Buffer) :
    List Step → State Bench → List (Except Failure Value × State Bench)
  | [], _ => []
  | first :: rest, s =>
    let (result, s') := step policy (program.call policy depth) first b s
    (result, s') :: program.trail policy depth b rest s'

end Program

end RpcSchema
