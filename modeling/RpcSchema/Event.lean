/-! What is noted while a source is read. An event has a level and a row of named values, its text
first. Whoever asks for more output sees the events, the finest only when asking twice. -/
namespace RpcSchema

inductive Level where
  | trace
  | debug
  | info
deriving DecidableEq, Repr

def Level.word : Level → String
  | trace => "TRACE"
  | debug => "DEBUG"
  | info => "INFO"

def Level.verbosity : Level → Nat
  | trace => 2
  | debug | info => 1

theorem Level.verbosity_pos (level : Level) : 0 < level.verbosity := by
  cases level <;> decide

inductive Datum where
  | text (value : String)
  | number (value : Nat)
deriving DecidableEq, Repr

def Datum.shown : Datum → String
  | text value => value.quote
  | number value => toString value

inductive Event where
  | normalized (chars : Nat)
  | branchFailed (rule : String) (position : Nat)
  | redeclared (message : String)
  | methodParsed (method request response : String)
  | messageParsed (message : String) (fields : Nat)
  | bareSkipped (token : String)
  | complete (methods messages : Nat)
deriving DecidableEq, Repr

namespace Event

def level : Event → Level
  | branchFailed _ _ => .trace
  | complete _ _ => .info
  | normalized _ | redeclared _ | methodParsed _ _ _ | messageParsed _ _ | bareSkipped _ => .debug

def text : Event → String
  | normalized _ => "normalized source"
  | branchFailed _ _ => "alternative failed"
  | redeclared _ => "message redeclared, replacing earlier body"
  | methodParsed _ _ _ => "parsed method"
  | messageParsed _ _ => "parsed message"
  | bareSkipped _ => "skipped bare identifier"
  | complete _ _ => "parse complete"

def details : Event → List (String × Datum)
  | normalized chars => [("chars", .number chars)]
  | branchFailed rule position => [("rule", .text rule), ("position", .number position)]
  | redeclared message => [("message", .text message)]
  | methodParsed method request response =>
    [("method", .text method), ("request", .text request), ("response", .text response)]
  | messageParsed message fields => [("message", .text message), ("fields", .number fields)]
  | bareSkipped token => [("token", .text token)]
  | complete methods messages => [("methods", .number methods), ("messages", .number messages)]

/-- All named values in the order in which they are recorded. -/
def fields (event : Event) : List (String × Datum) :=
  ("message", .text event.text) :: event.details

def isShown (event : Event) (verbosity : Nat) : Bool := event.level.verbosity ≤ verbosity

def line (event : Event) : String :=
  " ".intercalate
    (event.level.word :: event.fields.map fun (name, datum) => name ++ "=" ++ datum.shown)

end Event

end RpcSchema
