import RpcSchema.Yaml.Scalar

/-! The tokens of a document. Only a later colon tells that a scalar was the key of a pair, so a
token that may still turn out to be a key is a candidate; its key mark, and the start of a block
mapping, are put in front of it when the colon comes. A token is given out as soon as neither it nor
one before it is a candidate any more. Where the text is malformed no further ones are. -/
namespace RpcSchema.Yaml

inductive Sign where
  | endOfStream
  | documentStart
  | documentEnd
  | blockSequence
  | blockMapping
  | blockEnd
  | flowSequence
  | flowSequenceEnd
  | flowMapping
  | flowMappingEnd
  | blockEntry
  | flowEntry
  | key
  | value
  | scalar (text : String) (plain : Bool)
deriving DecidableEq, Repr

structure Token where
  sign : Sign
  place : Place
deriving DecidableEq, Repr

/-- A token that may be a key. A required one stands where its block can hold nothing else. -/
structure Candidate where
  index : Nat
  place : Place
  required : Bool
deriving DecidableEq, Repr

structure Scan where
  rest : List Char
  whole : Bool
  place : Place
  /-- Columns of the open block collections, innermost first. -/
  blocks : List Nat
  /-- The candidate outside all brackets. -/
  outer : Option Candidate
  /-- The candidate of every open bracket, innermost first. -/
  inner : List (Option Candidate)
  keyAllowed : Bool
  made : List Token

namespace Scan

def start (text : List Char) (whole : Bool) : Scan :=
  ⟨text, whole, .origin, [], none, [], true, []⟩

def bracketed (s : Scan) : Bool := !s.inner.isEmpty

def candidate (s : Scan) : Option Candidate := s.inner.headD s.outer

def setCandidate (s : Scan) (candidate : Option Candidate) : Scan :=
  match s.inner with
  | [] => { s with outer := candidate }
  | _ :: inner => { s with inner := candidate :: inner }

def emit (s : Scan) (sign : Sign) : Scan := { s with made := ⟨sign, s.place⟩ :: s.made }

def step (s : Scan) (count : Nat) : Scan :=
  { s with rest := s.rest.drop count, place := s.place.right count }

def emitOver (s : Scan) (sign : Sign) (count : Nat) : Scan := (s.emit sign).step count

def allowKey (s : Scan) (allowed : Bool) : Scan := { s with keyAllowed := allowed }

def putBefore (s : Scan) (index : Nat) (tokens : List Token) : Scan :=
  let later := s.made.length - index
  { s with made := s.made.take later ++ tokens ++ s.made.drop later }

/-- A candidate cannot be a key any more once its line has ended or it has grown too long. -/
def outdated (place : Place) (candidate : Candidate) : Bool :=
  candidate.place.line < place.line || candidate.place.bytes + 1024 < place.bytes

def keep (place : Place) (candidate : Option Candidate) : Option Candidate :=
  candidate.filter fun c => !outdated place c

def expire (s : Scan) : Option Scan :=
  if (s.outer :: s.inner).any fun c => c.any fun c => c.required && outdated s.place c then none
  else some { s with outer := keep s.place s.outer, inner := s.inner.map (keep s.place) }

def dropCandidate (s : Scan) : Option Scan :=
  if s.candidate.any (·.required) then none else some (s.setCandidate none)

def saveCandidate (s : Scan) : Option Scan := do
  if s.keyAllowed then
    let required := !s.bracketed && s.blocks.head? = some s.place.column
    let dropped ← s.dropCandidate
    return dropped.setCandidate (some ⟨s.made.length, s.place, required⟩)
  else return s

def closeBlocks (s : Scan) (column : Option Nat) : Scan :=
  if s.bracketed then s
  else
    let deeper := fun block : Nat => column.all fun column => decide (column < block)
    let closed := (s.blocks.takeWhile deeper).map fun _ => Token.mk .blockEnd s.place
    { s with blocks := s.blocks.dropWhile deeper, made := closed ++ s.made }

def openBlock (s : Scan) (sign : Sign) (index : Nat) (place : Place) : Scan :=
  if !s.bracketed && s.blocks.head?.all (· < place.column) then
    { s.putBefore index [⟨sign, place⟩] with blocks := place.column :: s.blocks }
  else s

/-- Goes to the next token, over gaps, breaks and comments. A break outside brackets lets a key
follow. -/
def skipGaps (bracketed allowed inComment : Bool) (place : Place) :
    List Char → List Char × Place × Bool
  | [] => ([], place, allowed)
  | c :: rest =>
    if isBreak c then skipGaps bracketed (allowed || !bracketed) false place.nextLine rest
    else if inComment || c = '#' then skipGaps bracketed allowed true (place.past c) rest
    else if c = ' ' || (c = '\t' && (bracketed || !allowed)) || isLineMark place c then
      skipGaps bracketed allowed false (place.past c) rest
    else (c :: rest, place, allowed)

def toToken (s : Scan) : Scan :=
  let (rest, place, allowed) := skipGaps s.bracketed s.keyAllowed false s.place s.rest
  { s with rest, place, keyAllowed := allowed }

def finish (s : Scan) : Option Scan := do
  let place := if s.place.column = 0 then s.place else s.place.nextLine
  let closed := { s with place }.closeBlocks none
  let dropped ← closed.dropCandidate
  return (dropped.allowKey false).emit .endOfStream

def documentMark (s : Scan) (sign : Sign) : Option Scan := do
  let dropped ← (s.closeBlocks none).dropCandidate
  return (dropped.allowKey false).emitOver sign 3

def openBracket (s : Scan) (sign : Sign) : Option Scan := do
  let saved ← s.saveCandidate
  return ({ saved with inner := none :: saved.inner }.allowKey true).emitOver sign 1

def closeBracket (s : Scan) (sign : Sign) : Option Scan := do
  let dropped ← s.dropCandidate
  return ({ dropped with inner := dropped.inner.tail }.allowKey false).emitOver sign 1

def flowEntry (s : Scan) : Option Scan := do
  let dropped ← s.dropCandidate
  return (dropped.allowKey true).emitOver .flowEntry 1

def blockEntry (s : Scan) : Option Scan := do
  if !s.bracketed && !s.keyAllowed then none
  let dropped ← (s.openBlock .blockSequence s.made.length s.place).dropCandidate
  return (dropped.allowKey true).emitOver .blockEntry 1

def explicitKey (s : Scan) : Option Scan := do
  if !s.bracketed && !s.keyAllowed then none
  let dropped ← (s.openBlock .blockMapping s.made.length s.place).dropCandidate
  return (dropped.allowKey (!s.bracketed)).emitOver .key 1

def valueMark (s : Scan) : Option Scan :=
  match s.candidate with
  | some candidate =>
    let keyed := s.putBefore candidate.index [⟨.key, candidate.place⟩]
    let opened := keyed.openBlock .blockMapping candidate.index candidate.place
    some (((opened.setCandidate none).allowKey false).emitOver .value 1)
  | none =>
    if !s.bracketed && !s.keyAllowed then none
    else
      let opened := s.openBlock .blockMapping s.made.length s.place
      some ((opened.allowKey (!s.bracketed)).emitOver .value 1)

def emitScalar (s : Scan) (scalar : Scalar) (plain : Bool) : Scan :=
  { s.emit (.scalar scalar.text plain) with
    rest := scalar.rest, place := scalar.place, keyAllowed := scalar.brokeLine }

def plainScalar (s : Scan) : Option Scan := do
  let saved ← s.saveCandidate
  let indent := (s.blocks.head?.map (· + 1)).getD 0
  let scalar ← plain ⟨s.bracketed, indent⟩ [] .none s.place s.rest
  return saved.emitScalar scalar true

def quotedScalar (s : Scan) (quote : Char) : Option Scan := do
  let saved ← s.saveCandidate
  let scalar ← quoted quote [] .none (s.place.right 1) 0 s.rest.tail
  return saved.emitScalar scalar false

def indicators : List Char := "-?:,[]{}#&*!|>'\"%@`".toList

def startsPlain (bracketed : Bool) (c : Char) (rest : List Char) : Bool :=
  if isGap c then false
  else if indicators.contains c then
    (c == '-' && !(rest.head?.any isGap)) ||
      (!bracketed && (c == '?' || c == ':') && !endsWord rest)
  else true

/-- The next token, from the first character of its text. Directives, anchors, aliases, tags and
block scalars are not part of this reader and count as malformed. -/
def token (s : Scan) (c : Char) (rest : List Char) : Option Scan :=
  if s.place.column = 0 && c = '%' then none
  else if marksDocument s.place (c :: rest) then
    s.documentMark (if c = '-' then .documentStart else .documentEnd)
  else if c = '[' then s.openBracket .flowSequence
  else if c = '{' then s.openBracket .flowMapping
  else if c = ']' then s.closeBracket .flowSequenceEnd
  else if c = '}' then s.closeBracket .flowMappingEnd
  else if c = ',' then s.flowEntry
  else if c = '-' && endsWord rest then s.blockEntry
  else if c = '?' && (s.bracketed || endsWord rest) then s.explicitKey
  else if c = ':' && (s.bracketed || endsWord rest) then s.valueMark
  else if c = '\'' || c = '"' then s.quotedScalar c
  else if startsPlain s.bracketed c rest then s.plainScalar
  else none

/-- What has been made is given out up to the first candidate. -/
def givenOut (s : Scan) : List Token :=
  let cut := ((s.outer :: s.inner).filterMap fun c => c.map (·.index)).foldl min s.made.length
  s.made.reverse.take cut

def lacks (s : Scan) (count : Nat) : Bool := !s.whole && s.rest.length < count

def next (s : Scan) : Option Scan := do
  let ready ← s.toToken.expire
  let reached := ready.closeBlocks (some ready.place.column)
  if reached.lacks 4 then none
  match reached.rest with
  | [] => reached.finish
  | c :: rest =>
    let after ← reached.token c rest
    if after.lacks 1 then none else some after

def isFinished (s : Scan) : Bool := s.made.head?.any (·.sign == .endOfStream)

/-- Reads tokens to the end of the text; `sound` is the last state without an outdated candidate
that had to be a key. Every round but the last takes a character at least. -/
def run : (limit : Nat) → (sound : Scan) → Scan → List Token
  | 0, sound, _ => sound.givenOut
  | limit + 1, sound, s =>
    match s.expire with
    | none => sound.givenOut
    | some s =>
      if s.isFinished then s.givenOut
      else
        match s.next with
        | none => s.givenOut
        | some after => run limit s after

end Scan

def tokens (text : List Char) : List Token :=
  let (read, whole) := readable [] blockBytes text
  let start := Scan.start (lineFeeds read) whole
  Scan.run (read.length + 2) start start

end RpcSchema.Yaml
