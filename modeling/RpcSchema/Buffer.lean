import RpcSchema.Blank

/-! The text that positions index into. A source is brought to its normal form first: a comment
runs from `#` through the end of its line, newline included, and what is left is written as words
with one space between two of them. -/
namespace RpcSchema

/-- Drops comments; `inside` says whether the text starts within one. The newline that ends a
comment belongs to it. -/
def dropComments (inside : Bool) : List Char → List Char
  | [] => []
  | c :: rest =>
    if inside then dropComments (c != '\n') rest
    else if c = '#' then dropComments true rest
    else c :: dropComments false rest

/-- Writes one space in place of every run of blanks that has a character after it; `owed` says
that such a run came just before. -/
def tighten (owed : Bool) : List Char → List Char
  | [] => []
  | c :: rest =>
    if isBlank c then tighten true rest
    else if owed then ' ' :: c :: tighten false rest
    else c :: tighten false rest

def collapse (text : List Char) : List Char :=
  tighten false (text.dropWhile isBlank)

def normalForm (source : List Char) : List Char :=
  collapse (dropComments false source)

example : normalForm "ab# c\nde  f\t\n".toList = "abde f".toList := by decide

structure Buffer where
  chars : Array Char
deriving DecidableEq, Repr

namespace Buffer

def ofText (text : String) : Buffer := ⟨text.toList.toArray⟩

def ofSource (source : String) : Buffer := ⟨(normalForm source.toList).toArray⟩

def text (b : Buffer) : String := String.ofList b.chars.toList

def size (b : Buffer) : Nat := b.chars.size

def isEmpty (b : Buffer) : Bool := b.size == 0

def get? (b : Buffer) (position : Nat) : Option Char := b.chars[position]?

def tail (b : Buffer) (position : Nat) : List Char := b.chars.toList.drop position

/-- The position after one space, when a space stands at `position`. -/
def pastSpace (b : Buffer) (position : Nat) : Nat :=
  if b.get? position = some ' ' then position + 1 else position

def holds (b : Buffer) (position : Nat) : List Char → Bool
  | [] => true
  | c :: rest => b.get? position == some c && b.holds (position + 1) rest

theorem get?_eq_none_iff (b : Buffer) (position : Nat) :
    b.get? position = none ↔ b.size ≤ position := by
  simp [get?, size]

theorem lt_size_of_get? {b : Buffer} {position : Nat} {c : Char}
    (found : b.get? position = some c) : position < b.size := by
  apply Nat.lt_of_not_le
  intro past
  rw [(b.get?_eq_none_iff position).2 past] at found
  cases found

theorem tail_eq_nil_iff (b : Buffer) (position : Nat) :
    b.tail position = [] ↔ b.size ≤ position := by
  simp [tail, size]

theorem le_pastSpace (b : Buffer) (position : Nat) : position ≤ b.pastSpace position := by
  unfold pastSpace
  split <;> omega

theorem pastSpace_le (b : Buffer) {position : Nat} (inside : position ≤ b.size) :
    b.pastSpace position ≤ b.size := by
  unfold pastSpace
  split
  · next space => exact lt_size_of_get? space
  · exact inside

theorem holds_iff_isPrefixOf (b : Buffer) (position : Nat) (literal : List Char) :
    b.holds position literal = true ↔ literal <+: b.tail position := by
  induction literal generalizing position with
  | nil => simp [holds]
  | cons c rest ih =>
    simp only [holds, Bool.and_eq_true, beq_iff_eq, ih, tail, get?]
    by_cases inside : position < b.chars.toList.length
    · rw [List.drop_eq_getElem_cons inside]
      have size : position < b.chars.size := by simpa using inside
      simp [List.cons_prefix_cons, size, eq_comm]
    · have past : b.chars.size ≤ position := by simpa using inside
      have nothing : b.chars.toList.drop position = [] := by simpa using past
      simp [past, nothing]

theorem size_le_of_holds {b : Buffer} {position : Nat} {literal : List Char}
    (found : b.holds position literal = true) (inside : position ≤ b.size) :
    position + literal.length ≤ b.size := by
  have short := ((b.holds_iff_isPrefixOf position literal).1 found).length_le
  simp only [tail, List.length_drop, Array.length_toList] at short
  simp only [size] at inside ⊢
  omega

theorem ofSource_chars (source : String) :
    (ofSource source).chars.toList = normalForm source.toList := by
  simp [ofSource]

end Buffer

end RpcSchema
