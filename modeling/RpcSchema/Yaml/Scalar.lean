import RpcSchema.Yaml.Place

/-! Scalars. Gaps inside a scalar are kept, but a break with the gaps around it is folded: a single
break becomes a space and of several the first is dropped. -/
namespace RpcSchema.Yaml

/-- What lies between the last character of a scalar and the next. Characters are newest first. -/
inductive Between where
  | gaps (chars : List Char)
  | breaks (first : Option Char) (more : List Char)
deriving DecidableEq, Repr

namespace Between

def none : Between := gaps []

def brokeLine : Between → Bool
  | gaps _ => false
  | breaks _ _ => true

def folded : Between → List Char
  | gaps chars => chars
  | breaks (some '\n') [] => [' ']
  | breaks (some '\n') more => more
  | breaks (some first) more => more ++ [first]
  | breaks Option.none more => more

def add (c : Char) : Between → Between
  | gaps chars => if isBreak c then breaks (some c) [] else gaps (c :: chars)
  | breaks first more => if isBreak c then breaks first (c :: more) else breaks first more

end Between

structure Scalar where
  text : String
  rest : List Char
  place : Place
  brokeLine : Bool

/-- Where a plain scalar may go on: inside brackets, or at columns from `indent` on. -/
structure Context where
  bracketed : Bool
  indent : Nat

def isBracket (c : Char) : Bool := c == ',' || c == '[' || c == ']' || c == '{' || c == '}'

def leavesPlain (context : Context) (between : Between) (place : Place) (c : Char)
    (rest : List Char) : Bool :=
  (between != .none &&
      ((!context.bracketed && place.column < context.indent) || c == '#' ||
        marksDocument place (c :: rest))) ||
    (c == ':' && endsWord rest) || (context.bracketed && isBracket c)

def strayColon (context : Context) (c : Char) (rest : List Char) : Bool :=
  context.bracketed && c == ':' &&
    match rest with
    | next :: _ => isBracket next || next == '?'
    | [] => false

/-- A plain scalar from its first character on; `written` is newest first. A tab in the indentation
of a further line and a colon that runs into a sign are refused. -/
def plain (context : Context) (written : List Char) (between : Between) (place : Place) :
    List Char → Option Scalar
  | [] => some ⟨String.ofList written.reverse, [], place, between.brokeLine⟩
  | c :: rest =>
    if isGap c || isBreak c then
      if c == '\t' && between.brokeLine && place.column < context.indent then none
      else plain context written (between.add c) (place.past c) rest
    else if leavesPlain context between place c rest then
      some ⟨String.ofList written.reverse, c :: rest, place, between.brokeLine⟩
    else if strayColon context c rest then none
    else plain context (c :: (between.folded ++ written)) .none (place.past c) rest

def hexValue? (c : Char) : Option Nat :=
  if '0' ≤ c && c ≤ '9' then some (c.toNat - 48)
  else if 'a' ≤ c && c ≤ 'f' then some (c.toNat - 87)
  else if 'A' ≤ c && c ≤ 'F' then some (c.toNat - 55)
  else none

def hexChar? (digits : List Char) (count : Nat) : Option Char := do
  if digits.length < count then none
  let values ← (digits.take count).mapM hexValue?
  let code := values.foldl (fun total value => 16 * total + value) 0
  if code.isValidChar then some (Char.ofNat code) else none

def shortEscapes : List (Char × Char) :=
  [('0', '\x00'), ('a', '\x07'), ('b', '\x08'), ('t', '\t'), ('\t', '\t'), ('n', '\n'),
    ('v', '\x0b'), ('f', '\x0c'), ('r', '\r'), ('e', '\x1b'), (' ', ' '), ('"', '"'), ('/', '/'),
    ('\\', '\\'), ('N', '\u0085'), ('_', '\u00a0'), ('L', '\u2028'), ('P', '\u2029')]

def longEscapes : List (Char × Nat) := [('x', 2), ('u', 4), ('U', 8)]

/-- The character that an escape stands for, and how many characters behind the backslash it
takes. -/
def escape? : List Char → Option (Char × Nat)
  | [] => none
  | c :: rest =>
    match shortEscapes.lookup c with
    | some written => some (written, 1)
    | none =>
      match longEscapes.lookup c with
      | some count => (hexChar? rest count).map fun written => (written, count + 1)
      | none => none

/-- A quoted scalar from behind its opening quote, up to and with the closing one. In single quotes
a doubled quote stands for one, in double quotes a backslash opens an escape or hides a break.
`skipped` characters belong to what has been read already. -/
def quoted (quote : Char) (written : List Char) (between : Between) (place : Place)
    (skipped : Nat) : List Char → Option Scalar
  | [] => none
  | c :: rest =>
    match skipped with
    | skipped + 1 => quoted quote written between (place.past c) skipped rest
    | 0 =>
      if isGap c || isBreak c then quoted quote written (between.add c) (place.past c) 0 rest
      else if marksDocument place (c :: rest) then none
      else
        let written := between.folded ++ written
        if c = quote then
          if quote = '\'' && rest.head? = some '\'' then
            quoted quote ('\'' :: written) .none (place.past c) 1 rest
          else some ⟨String.ofList written.reverse, rest, place.past c, false⟩
        else if c = '\\' && quote = '"' then
          if rest.head?.any isBreak then
            quoted quote written (.breaks none []) (place.past c) 1 rest
          else
            match escape? rest with
            | some (char, taken) => quoted quote (char :: written) .none (place.past c) taken rest
            | none => none
        else quoted quote (c :: written) .none (place.past c) 0 rest

end RpcSchema.Yaml
