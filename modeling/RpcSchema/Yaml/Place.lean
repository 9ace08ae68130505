/-! Places in a document and the characters that end its lines. A document is read with one line
feed for each of its breaks, whichever way they are written; the line and paragraph separators are
breaks of their own. It is taken in blocks of bytes, and a block that holds a character which is not
allowed is refused whole. -/
namespace RpcSchema.Yaml

/-- Line and column, both counted from zero. -/
structure Place where
  line : Nat
  column : Nat
  /-- Bytes of UTF-8 between the start of the line and the column. -/
  bytes : Nat
deriving DecidableEq, Repr

namespace Place

def origin : Place := ⟨0, 0, 0⟩

def right (place : Place) (count : Nat) : Place :=
  ⟨place.line, place.column + count, place.bytes + count⟩

def nextLine (place : Place) : Place := ⟨place.line + 1, 0, 0⟩

def shown (place : Place) : String :=
  if place = origin then ""
  else " at line " ++ toString (place.line + 1) ++ " column " ++ toString (place.column + 1)

end Place

def isBreak (c : Char) : Bool := c == '\n' || c == '\u2028' || c == '\u2029'

def isGap (c : Char) : Bool := c == ' ' || c == '\t'

def endsWord : List Char → Bool
  | [] => true
  | c :: _ => isGap c || isBreak c

def Place.past (place : Place) (c : Char) : Place :=
  if isBreak c then place.nextLine
  else ⟨place.line, place.column + 1, place.bytes + c.utf8Size⟩

/-- Writes every carriage return, with the line feed that may follow it, and every next-line
character as a line feed. -/
def lineFeeds : List Char → List Char
  | [] => []
  | '\r' :: '\n' :: rest => '\n' :: lineFeeds rest
  | c :: rest => (if c = '\r' || c = '\u0085' then '\n' else c) :: lineFeeds rest

def isAllowed (c : Char) : Bool :=
  let n := c.toNat
  n == 0x9 || n == 0xa || n == 0xd || n == 0x85 || (0x20 ≤ n && n ≤ 0x7e) ||
    (0xa0 ≤ n && n ≤ 0xfffd) || 0x10000 ≤ n

def blockBytes : Nat := 16384

/-- The characters before the first block that is refused, and whether they are all. The block being
taken is given with its newest character first and the bytes that it has room for. -/
def readable (block : List Char) (room : Nat) : List Char → List Char × Bool
  | [] => (block.reverse, true)
  | c :: rest =>
    if c.utf8Size ≤ room then
      if isAllowed c then readable (c :: block) (room - c.utf8Size) rest else ([], false)
    else if isAllowed c then
      let (more, whole) := readable [c] (blockBytes - c.utf8Size) rest
      (block.reverse ++ more, whole)
    else (block.reverse, false)

theorem readable_of_allowed {text : List Char} (allowed : ∀ c ∈ text, isAllowed c = true)
    (block : List Char) (room : Nat) :
    readable block room text = (block.reverse ++ text, true) := by
  induction text generalizing block room with
  | nil => simp [readable]
  | cons c rest ih =>
    have first : isAllowed c = true := allowed c List.mem_cons_self
    have later : ∀ d ∈ rest, isAllowed d = true := fun d member =>
      allowed d (List.mem_cons_of_mem _ member)
    simp [readable, first, ih later]

/-- A mark of byte order is passed over where it stands first on a line. -/
def isLineMark (place : Place) (c : Char) : Bool := place.column == 0 && c == '\ufeff'

def marksDocument (place : Place) (text : List Char) : Bool :=
  place.column == 0 &&
    match text with
    | a :: b :: c :: rest => (a == '-' || a == '.') && b == a && c == a && endsWord rest
    | _ => false

example : lineFeeds "a\r\nb\rc\n".toList = "a\nb\nc\n".toList := by decide

end RpcSchema.Yaml
