import RpcSchema.Policy
import RpcSchema.Schema

/-! Interfaces as JSON text. A string is written with the short escapes and `\u00xx` for the other
control characters, and every further character stands for itself. There are two layouts: compact,
without any space, and indented by two spaces a level. -/
namespace RpcSchema

inductive Json where
  | string (text : String)
  | array (items : List Json)
  | object (members : List (String × Json))

namespace Json

def hexDigit (n : Nat) : Char := Char.ofNat (if n < 10 then 48 + n else 87 + n)

def escape (c : Char) : List Char :=
  if c = '"' then ['\\', '"']
  else if c = '\\' then ['\\', '\\']
  else if c = '\x08' then ['\\', 'b']
  else if c = '\x0c' then ['\\', 'f']
  else if c = '\n' then ['\\', 'n']
  else if c = '\r' then ['\\', 'r']
  else if c = '\t' then ['\\', 't']
  else if c.toNat < 32 then ['\\', 'u', '0', '0', hexDigit (c.toNat / 16), hexDigit (c.toNat % 16)]
  else [c]

def quote (text : String) : List Char := '"' :: text.toList.flatMap escape ++ ['"']

inductive Layout where
  | compact
  | indented
deriving DecidableEq

/-- What stands before an item or a closing bracket. -/
def Layout.newline : Layout → (depth : Nat) → List Char
  | compact, _ => []
  | indented, depth => '\n' :: List.replicate (2 * depth) ' '

def Layout.colon : Layout → List Char
  | compact => [':']
  | indented => [':', ' ']

def comma (first : Bool) : List Char := if first then [] else [',']

mutual

def write (layout : Layout) (depth : Nat) : Json → List Char
  | .string text => quote text
  | .array items => '[' :: writeItems layout depth true items
  | .object members => '{' :: writeMembers layout depth true members

/-- The items from one on, and the closing bracket. -/
def writeItems (layout : Layout) (depth : Nat) (first : Bool) : List Json → List Char
  | [] => (if first then [] else layout.newline depth) ++ [']']
  | item :: rest =>
    comma first ++ layout.newline (depth + 1) ++ write layout (depth + 1) item ++
      writeItems layout depth false rest

def writeMembers (layout : Layout) (depth : Nat) (first : Bool) :
    List (String × Json) → List Char
  | [] => (if first then [] else layout.newline depth) ++ ['}']
  | (name, value) :: rest =>
    comma first ++ layout.newline (depth + 1) ++ quote name ++ layout.colon ++
      write layout (depth + 1) value ++ writeMembers layout depth false rest

end

def text (layout : Layout) (json : Json) : String := String.ofList (write layout 0 json)

end Json

def Body.toJson (body : Body) : Json :=
  .object (body.entries.map fun (name, type) => (name, .string type))

def Reference.toJson (reference : Reference) : Json :=
  .object [(reference.name, Body.toJson reference.body)]

def Method.toJson (method : Method) : Json :=
  .object [(method.name, .object
    [("request", method.request.toJson), ("response", method.response.toJson)])]

def Interface.toJson (file : Interface) : Json := .array (file.methods.map Method.toJson)

def Policy.toJson (policy : Policy) : Json :=
  .object [("duplicate-messages", .string policy.duplicates.word),
    ("trailing-comma", .string policy.trailingComma.word)]

def Interface.printed (file : Interface) : String := file.toJson.text .indented ++ "\n"

example : (Json.object [("a", .array []), ("\n", .object [])]).text .compact =
    "\x7b\"a\":[],\"\\n\":\x7b\x7d\x7d" := by decide

end RpcSchema
