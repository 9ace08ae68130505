import RpcSchema.Buffer
import RpcSchema.Failure

/-! What goes wrong with a whole file, and how it is reported: a text, a code, sometimes a help, and
for a failure of reading a label on the span of the character where it happened. Spans count bytes
of UTF-8. -/
namespace RpcSchema

structure Span where
  offset : Nat
  length : Nat
deriving DecidableEq, Repr

structure NamedText where
  name : String
  text : String
deriving DecidableEq, Repr

def utf8Length : List Char → Nat
  | [] => 0
  | c :: rest => c.utf8Size + utf8Length rest

theorem utf8Length_append (first second : List Char) :
    utf8Length (first ++ second) = utf8Length first + utf8Length second := by
  induction first with
  | nil => simp [utf8Length]
  | cons c rest ih => simp [utf8Length, ih, Nat.add_assoc]

/-- The span of the character at a position, empty and at the end when there is none. -/
def spanAt (chars : List Char) (position : Nat) : Span :=
  ⟨utf8Length (chars.take position), utf8Length ((chars.drop position).take 1)⟩

/-- The text that is shown for a span. A carriage return is shown with the line feed behind it. -/
def covered (chars : List Char) (position : Nat) : List Char :=
  match chars.drop position with
  | [] => []
  | '\r' :: '\n' :: _ => ['\r', '\n']
  | c :: _ => [c]

theorem spanAt_le (chars : List Char) (position : Nat) :
    (spanAt chars position).offset + (spanAt chars position).length ≤ utf8Length chars := by
  have whole : chars = chars.take position ++
      ((chars.drop position).take 1 ++ (chars.drop position).drop 1) := by
    rw [List.take_append_drop, List.take_append_drop]
  have total := congrArg utf8Length whole
  rw [utf8Length_append, utf8Length_append] at total
  simp only [spanAt]
  omega

inductive Trouble where
  | unreadable (path : String)
  | unwritable (target : String)
  | badPolicy (path : String)
  | unparsed (failure : Failure) (source : NamedText)
deriving DecidableEq, Repr

structure Label where
  text : String
  span : Span
  sourceName : String
  covered : String
deriving DecidableEq, Repr

structure Diagnostic where
  text : String
  code : String
  help : Option String
  labels : List Label
deriving DecidableEq, Repr

def Failure.report (failure : Failure) (source : NamedText) : Diagnostic :=
  let chars := source.text.toList
  ⟨"Parse error: " ++ failure.message, "protoidl::parse::" ++ failure.cause.code,
    failure.cause.help?,
    [⟨failure.cause.label, spanAt chars failure.position, source.name,
      String.ofList (covered chars failure.position)⟩]⟩

def Trouble.report : Trouble → Diagnostic
  | unreadable path => ⟨"failed to read '" ++ path ++ "'", "protoidl::io", none, []⟩
  | unwritable target => ⟨"failed to write " ++ target, "protoidl::write", none, []⟩
  | badPolicy path =>
    ⟨"invalid parser options in '" ++ path ++ "'", "protoidl::config",
      some "options accept `duplicate-messages` and `trailing-comma`", []⟩
  | unparsed failure source => failure.report source

end RpcSchema
