import RpcSchema.Yaml.Token

/-! The first document of a stream, read as one mapping of scalars. Its keys and values are given
out in turn, up to its end or to the first thing that is no scalar. -/
namespace RpcSchema.Yaml

/-- A key or a value. One that is missing counts as an empty scalar. -/
structure Part where
  text : String
  place : Place
deriving DecidableEq, Repr

/-- What a mapping goes on with. A node stands behind the mark at the given place. -/
inductive Expect where
  | opened
  | key
  | keyNode (mark : Place)
  | value
  | valueNode (mark : Place)
  | loneKey
  | separator
deriving DecidableEq, Repr

inductive Turn where
  | on (expect : Expect)
  | finished
  | stopped
deriving DecidableEq, Repr

def nodeAt (token : Token) (next : Expect) : List Part × Turn :=
  match token.sign with
  | .scalar text _ => ([⟨text, token.place⟩], .on next)
  | _ => ([], .stopped)

def missing (place : Place) (step : List Part × Turn) : List Part × Turn :=
  (⟨"", place⟩ :: step.1, step.2)

namespace Block

def atKey (token : Token) : List Part × Turn :=
  match token.sign with
  | .key => ([], .on (.keyNode token.place))
  | .blockEnd => ([], .finished)
  | _ => ([], .stopped)

def atValue (token : Token) : List Part × Turn :=
  match token.sign with
  | .value => ([], .on (.valueNode token.place))
  | _ => missing token.place (atKey token)

def leavesOut : Sign → Bool
  | .key | .value | .blockEnd => true
  | _ => false

def step : Expect → Token → List Part × Turn
  | .keyNode mark, token =>
    if leavesOut token.sign then missing (mark.right 1) (atValue token)
    else nodeAt token .value
  | .value, token => atValue token
  | .valueNode mark, token =>
    if leavesOut token.sign then missing (mark.right 1) (atKey token) else nodeAt token .key
  | _, token => atKey token

end Block

namespace Flow

def atSeparator (token : Token) : List Part × Turn :=
  match token.sign with
  | .flowEntry => ([], .on .key)
  | .flowMappingEnd => ([], .finished)
  | _ => ([], .stopped)

def atKey (token : Token) : List Part × Turn :=
  match token.sign with
  | .flowMappingEnd => ([], .finished)
  | .key => ([], .on (.keyNode token.place))
  | _ => nodeAt token .loneKey

def atValue (token : Token) : List Part × Turn :=
  match token.sign with
  | .value => ([], .on (.valueNode token.place))
  | _ => missing token.place (atSeparator token)

def step : Expect → Token → List Part × Turn
  | .keyNode _, token =>
    match token.sign with
    | .value | .flowEntry | .flowMappingEnd => missing token.place (atValue token)
    | _ => nodeAt token .value
  | .value, token => atValue token
  | .valueNode _, token =>
    match token.sign with
    | .flowEntry | .flowMappingEnd => missing token.place (atSeparator token)
    | _ => nodeAt token .separator
  | .loneKey, token => missing token.place (atSeparator token)
  | .separator, token => atSeparator token
  | _, token => atKey token

end Flow

def parts (step : Expect → Token → List Part × Turn) (expect : Expect) :
    List Token → List Part × Option (List Token)
  | [] => ([], none)
  | token :: rest =>
    let (found, turn) := step expect token
    match turn with
    | .stopped => (found, none)
    | .finished => (found, some rest)
    | .on next =>
      let (more, after) := parts step next rest
      (found ++ more, after)

/-- Whether nothing but the ends of a document comes before the end of the stream. -/
def endsStream (tokens : List Token) : Bool :=
  match tokens.dropWhile fun token => token.sign == .documentEnd with
  | token :: _ => token.sign == .endOfStream
  | [] => false

/-- The keys and values of a document that is a mapping, where the mapping starts, and whether it
was read to its end with nothing behind it. -/
structure Document where
  place : Place
  parts : List Part
  complete : Bool
deriving DecidableEq, Repr

namespace Document

def empty (complete : Bool) : Document := ⟨.origin, [], complete⟩

def endsDocument : Sign → Bool
  | .documentStart | .documentEnd | .endOfStream => true
  | _ => false

def ofRoot? : List Token → Option Document
  | [] => none
  | token :: rest =>
    let mapping := fun (read : List Part × Option (List Token)) =>
      some ⟨token.place, read.1, read.2.any endsStream⟩
    match token.sign with
    | .blockMapping => mapping (Yaml.parts Block.step .opened rest)
    | .flowMapping => mapping (Yaml.parts Flow.step .opened rest)
    | _ => none

/-- The first document of a stream. One without a root is an empty mapping. -/
def ofTokens? : List Token → Option Document
  | [] => none
  | token :: rest =>
    match token.sign with
    | .endOfStream => some (empty true)
    | .documentStart =>
      if rest.head?.any fun next => endsDocument next.sign then some (empty (endsStream rest))
      else ofRoot? rest
    | _ => ofRoot? (token :: rest)

def ofText? (text : List Char) : Option Document := ofTokens? (tokens text)

end Document

example : (Document.ofText? "a: b # c\n'd':\n".toList).map (·.parts.map (·.text)) =
    some ["a", "b", "d", ""] := by decide

end RpcSchema.Yaml
