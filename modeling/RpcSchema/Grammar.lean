import RpcSchema.Choice
import RpcSchema.Policy
import RpcSchema.Schema

/-! The interface language.

    anyType       = complexType | primitiveType
    complexType   = method | message
    primitiveType = string
    string        = [0-9A-Za-z[]]+
    pair          = string ':' string
    body          = '{' (pair (',' pair)* ','?)? '}'
    message       = 'message' string body
    method        = 'method' string '(' string ')' '->' string ';'

A source is a row of `anyType`. A message is put into the scope when it has been read whole, a
method may name only what is in scope, and a lone string is read and dropped. -/
namespace RpcSchema

inductive Declaration where
  | method (method : Method)
  | message (name : String) (body : Body)
  | bare (token : String)
deriving DecidableEq

/-- What the declarations read so far amount to. -/
structure Declared where
  interface : Interface
  scope : Scope
deriving DecidableEq

def Declared.nothing : Declared := ⟨.empty, .empty⟩

def Declaration.event : Declaration → Event
  | method m => .methodParsed m.name m.request.name m.response.name
  | message name body => .messageParsed name body.size
  | bare token => .bareSkipped token

namespace Grammar

def nameClass : String := "0-9A-Za-z[]"

abbrev Production (α : Type) := Rule Declared α

def string : Production String := do
  let first ← Rule.char (some nameClass)
  let rest ← Rule.repeated (Rule.tryChar (some nameClass)) (← Rule.unread)
  return String.ofList (first :: rest)

/-- A string with a space before and after it stepped over. -/
def identifier : Production String := Rule.choice [⟨"string", string⟩]

def pair : Production (String × String) := do
  let name ← identifier
  let _ ← Rule.keyword [":"]
  let type ← identifier
  return (name, type)

/-- A closing brace that follows a comma is refused where it stands. -/
def refuseBrace : Production Unit := do
  Rule.skipSpace
  let next ← Rule.peek
  let here ← Rule.offset
  if next = some '}' then Rule.fail ⟨here, .danglingComma next⟩ else pure ()

/-- Fields up to one that no comma follows, or to a comma that no field follows. Every field takes
characters, so a limit above the number of unread characters is never met. -/
def fields (policy : Policy) : (limit : Nat) → (afterComma : Bool) → Body → Production Body
  | 0, _, body => pure body
  | limit + 1, afterComma, body => do
    match ← Rule.tryChoice [⟨"pair", pair⟩] with
    | none =>
      if afterComma && policy.trailingComma = .reject then do
        refuseBrace
        return body
      else return body
    | some (name, type) =>
      let body := body.insert name type
      match ← Rule.tryKeyword [","] with
      | none => return body
      | some _ => fields policy limit true body

def body (policy : Policy) : Production Body := do
  let _ ← Rule.keyword ["\x7b"]
  let body ← fields policy ((← Rule.unread) + 1) false .empty
  let _ ← Rule.keyword ["\x7d"]
  return body

def declare (policy : Policy) (start : Nat) (name : String) (body : Body) : Production Unit := do
  let declared ← Rule.held
  let known := declared.scope.contains name
  if known && policy.duplicates = .reject then Rule.fail ⟨start, .duplicateMessage name⟩
  else do
    Rule.setHeld { declared with scope := declared.scope.insert name body }
    if known then Rule.note (.redeclared name) else pure ()

def message (policy : Policy) : Production (String × Body) := do
  let _ ← Rule.keyword ["message"]
  Rule.skipSpace
  let start ← Rule.offset
  let name ← string
  Rule.skipSpace
  let body ← body policy
  declare policy start name body
  return (name, body)

def reference (role : Role) : Production Reference := do
  Rule.skipSpace
  let start ← Rule.offset
  let name ← identifier
  match Scope.resolve (← Rule.held).scope name with
  | some reference => return reference
  | none => Rule.fail ⟨start, .undefinedMessage role name⟩

def method : Production Method := do
  let _ ← Rule.keyword ["method"]
  let name ← identifier
  let _ ← Rule.keyword ["("]
  let request ← reference .request
  let _ ← Rule.keyword [")"]
  let _ ← Rule.keyword ["->"]
  let response ← reference .response
  let _ ← Rule.keyword [";"]
  let method : Method := ⟨name, request, response⟩
  let declared ← Rule.held
  Rule.setHeld { declared with interface := declared.interface.push method }
  return method

def complexType (policy : Policy) : Production Declaration :=
  Rule.choice
    [⟨"method", Declaration.method <$> method⟩,
      ⟨"message", (fun (name, body) => Declaration.message name body) <$> message policy⟩]

def primitiveType : Production Declaration := Declaration.bare <$> identifier

def anyType (policy : Policy) : Production Declaration :=
  Rule.choice [⟨"complexType", complexType policy⟩, ⟨"primitiveType", primitiveType⟩]

def declaration (policy : Policy) : Production Declaration :=
  Rule.choice [⟨"anyType", anyType policy⟩]

def noProgress (start : Nat) : Failure :=
  ⟨start, .internal "top-level declaration matched without consuming input"⟩

/-- Reads declarations until the buffer is exhausted. Each takes a character at least, so as many
rounds as there are unread characters are enough. -/
def rounds (policy : Policy) : (limit : Nat) → Production Unit
  | 0 => pure ()
  | limit + 1 => do
    let unread ← Rule.unread
    let start ← Rule.offset
    if unread = 0 then pure ()
    else do
      let declaration ← declaration policy
      let reached ← Rule.offset
      if reached ≤ start then Rule.fail (noProgress start)
      else do
        Rule.note declaration.event
        rounds policy limit

def source (policy : Policy) : Production Declared := do
  rounds policy (← Rule.unread)
  let declared ← Rule.held
  Rule.note (.complete declared.interface.size declared.scope.size)
  return declared

end Grammar

def readBuffer (policy : Policy) (b : Buffer) : Except Failure Declared × State Declared :=
  Grammar.source policy b (.initial .nothing)

def readSource (policy : Policy) (source : String) : Except Failure Declared × State Declared :=
  let b := Buffer.ofSource source
  Grammar.source policy b ((State.initial .nothing).note (.normalized b.size))

/-- One declaration after the other, each with the state behind it, up to the first failure. -/
def declarationTrail (policy : Policy) (b : Buffer) :
    (limit : Nat) → State Declared → List (Except Failure Declaration × State Declared)
  | 0, _ => []
  | limit + 1, s =>
    if b.size ≤ s.offset then []
    else
      match Grammar.declaration policy b s with
      | (.error e, s') => [(.error e, s')]
      | (.ok declaration, s') => (.ok declaration, s') :: declarationTrail policy b limit s'

end RpcSchema
