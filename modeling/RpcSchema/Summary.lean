import RpcSchema.Schema

/-! The listing of an interface for people. It is a row of styled pieces; without colour only their
texts are written, with colour every styled piece stands between terminal escape sequences. -/
namespace RpcSchema

inductive Style where
  | plain
  | title
  | faint
  | total
deriving DecidableEq, Repr

def Style.codes : Style → List Nat
  | plain => []
  | title => [0, 1, 36]
  | faint => [0, 2]
  | total => [0, 32]

structure Piece where
  style : Style
  text : String
deriving DecidableEq, Repr

def escapeCode (code : Nat) : String := "\x1b[" ++ toString code ++ "m"

def Piece.coloured (piece : Piece) : String :=
  match piece.style with
  | .plain => piece.text
  | style => String.join (style.codes.map escapeCode) ++ piece.text ++ escapeCode 0

namespace Summary

def field (name type : String) : Piece := ⟨.plain, "    " ++ name ++ ": " ++ type ++ "\n"⟩

/-- A message under the heading of its role, which fills eleven columns. -/
def reference (heading : String) (message : Reference) : List Piece :=
  ⟨.faint, heading⟩ :: ⟨.plain, message.name ++ "\n"⟩ ::
    message.body.entries.map fun (name, type) => field name type

def method (m : Method) : List Piece :=
  [⟨.title, m.name⟩, ⟨.plain, "(" ++ m.request.name ++ ") -> " ++ m.response.name ++ "\n"⟩]
    ++ reference "  request  " m.request ++ reference "  response " m.response

def pieces (file : Interface) : List Piece :=
  if file.methods.isEmpty then [⟨.plain, "no methods declared\n"⟩]
  else file.methods.flatMap method ++ [⟨.total, toString file.size ++ " method(s)\n"⟩]

def plain (file : Interface) : String := String.join ((pieces file).map Piece.text)

def coloured (file : Interface) : String := String.join ((pieces file).map Piece.coloured)

end Summary

end RpcSchema
