import RpcSchema.Yaml.Document

/-! Documents that hold one pair of plain words a line. Three tokens are read from a line: its key,
the colon behind it, in front of which the marks of the pair are put then, and its value, which the
line feed or the end of the text closes. So the document gives out its pairs in order, up to the
first key that is too long to be one. -/
namespace RpcSchema.Yaml

def IsLower (c : Char) : Prop := 'a' ≤ c ∧ c ≤ 'z'

instance (c : Char) : Decidable (IsLower c) :=
  inferInstanceAs (Decidable ('a' ≤ c ∧ c ≤ 'z'))

/-- A letter, then letters and dashes. -/
structure PlainWord where
  first : Char
  later : List Char
  letter : IsLower first
  plain : ∀ c ∈ later, IsLower c ∨ c = '-'

theorem plain_of_all {later : List Char}
    (all : (later.all fun c => decide (IsLower c ∨ c = '-')) = true) :
    ∀ c ∈ later, IsLower c ∨ c = '-' :=
  fun c member => of_decide_eq_true (List.all_eq_true.1 all c member)

namespace PlainWord

def chars (word : PlainWord) : List Char := word.first :: word.later

def text (word : PlainWord) : String := String.ofList word.chars

def length (word : PlainWord) : Nat := word.chars.length

end PlainWord

/-- A pair of a document, a key and its value. -/
structure Setting where
  key : PlainWord
  value : PlainWord

namespace Setting

def line (s : Setting) : List Char := s.key.chars ++ ':' :: ' ' :: s.value.chars

theorem line_append (s : Setting) (rest : List Char) :
    s.line ++ rest = s.key.chars ++ ':' :: ' ' :: (s.value.chars ++ rest) := by
  simp [line]

/-- Whether the key is short enough to be told by the colon behind it. -/
def isShort (s : Setting) : Bool := decide (s.key.length ≤ 1024)

def keyPlace (line : Nat) : Place := ⟨line, 0, 0⟩

def valuePlace (line : Nat) (s : Setting) : Place :=
  ⟨line, s.key.length + 2, s.key.length + 2⟩

def tokens (opened : Bool) (line : Nat) (s : Setting) : List Token :=
  (if opened then [] else [⟨.blockMapping, keyPlace line⟩]) ++
    [⟨.key, keyPlace line⟩, ⟨.scalar s.key.text true, keyPlace line⟩,
      ⟨.value, ⟨line, s.key.length, s.key.length⟩⟩,
      ⟨.scalar s.value.text true, valuePlace line s⟩]

end Setting

/-- The document of the settings, one a line. A line feed may stand behind the last one. -/
def written (ended : Bool) : List Setting → List Char
  | [] => []
  | s :: rest =>
    s.line ++ if rest.isEmpty && !ended then [] else '\n' :: written ended rest

/-- What is given out of the document from a line on. It ends before a key that is too long, or with
such a key where that is the first of all. -/
def given (opened : Bool) (line : Nat) : List Setting → List Token
  | [] => (if opened then [⟨.blockEnd, ⟨line, 0, 0⟩⟩] else []) ++ [⟨.endOfStream, ⟨line, 0, 0⟩⟩]
  | s :: rest =>
    if s.isShort then s.tokens opened line ++ given true (line + 1) rest
    else if opened then [] else [⟨.scalar s.key.text true, Setting.keyPlace line⟩]

/-- A character that means nothing but itself inside a plain scalar. -/
structure IsInner (c : Char) : Prop where
  gap : isGap c = false
  line : isBreak c = false
  colon : c ≠ ':'
  byte : c.utf8Size = 1
  allowed : isAllowed c = true
  feed : c ≠ '\r' ∧ c ≠ '\u0085'

structure IsOpening (c : Char) : Prop extends IsInner c where
  hash : c ≠ '#'
  mark : c ≠ '\ufeff'
  sign : c ∉ Scan.indicators
  point : c ≠ '.'

theorem IsLower.exists_code {c : Char} (lower : IsLower c) :
    ∃ n < 26, c = Char.ofNat (97 + n) := by
  have low : 97 ≤ c.toNat := lower.1
  have high : c.toNat ≤ 122 := lower.2
  exact ⟨c.toNat - 97, by omega, by rw [Nat.add_sub_of_le low, Char.ofNat_toNat]⟩

theorem IsLower.opening {c : Char} (lower : IsLower c) : IsOpening c := by
  -- The letters are tried one by one.
  have tried : ∀ n < 26, let c := Char.ofNat (97 + n)
      (isGap c = false ∧ isBreak c = false ∧ c ≠ ':' ∧ c.utf8Size = 1 ∧ isAllowed c = true ∧
        c ≠ '\r' ∧ c ≠ '\u0085') ∧
      c ≠ '#' ∧ c ≠ '\ufeff' ∧ c ∉ Scan.indicators ∧ c ≠ '.' := by decide +kernel
  obtain ⟨n, small, rfl⟩ := lower.exists_code
  obtain ⟨⟨gap, line, colon, byte, allowed, feed⟩, hash, mark, sign, point⟩ := tried n small
  exact ⟨⟨gap, line, colon, byte, allowed, feed⟩, hash, mark, sign, point⟩

theorem PlainWord.inner (word : PlainWord) : ∀ c ∈ word.chars, IsInner c := by
  intro c member
  rcases List.mem_cons.1 member with rfl | later
  · exact word.letter.opening.toIsInner
  · rcases word.plain c later with lower | rfl
    · exact lower.opening.toIsInner
    · exact ⟨rfl, rfl, by decide, rfl, rfl, by decide, by decide⟩

theorem plain_append {text : List Char} (inner : ∀ c ∈ text, IsInner c) (indent : Nat)
    (before : List Char) (place : Place) (rest : List Char) :
    plain ⟨false, indent⟩ before .none place (text ++ rest) =
      plain ⟨false, indent⟩ (text.reverse ++ before) .none (place.right text.length) rest := by
  induction text generalizing before place with
  | nil => rfl
  | cons c text ih =>
    obtain ⟨here, later⟩ := List.forall_mem_cons.1 inner
    have stays : leavesPlain ⟨false, indent⟩ .none place c (text ++ rest) = false := by
      simp [leavesPlain, here.colon]
    have past : place.past c = place.right 1 := by
      simp [Place.past, here.line, here.byte, Place.right]
    rw [List.cons_append, plain, here.gap, here.line, stays, past]
    change plain ⟨false, indent⟩ (c :: before) .none (place.right 1) (text ++ rest) = _
    rw [ih later]
    simp [Place.right, Nat.add_assoc, Nat.add_comm 1]

theorem plain_colon (word : PlainWord) (indent : Nat) (place : Place) (rest : List Char) :
    plain ⟨false, indent⟩ [] .none place (word.chars ++ ':' :: ' ' :: rest) =
      some ⟨word.text, ':' :: ' ' :: rest, place.right word.length, false⟩ := by
  rw [plain_append word.inner, List.append_nil]
  have leaves : leavesPlain ⟨false, indent⟩ .none (place.right word.chars.length) ':'
      (' ' :: rest) = true := by
    simp [leavesPlain, endsWord, isGap]
  rw [plain, leaves]
  simp [isGap, isBreak, PlainWord.text, PlainWord.length, Between.brokeLine, Between.none]

theorem plain_end (word : PlainWord) (indent : Nat) (place : Place) :
    plain ⟨false, indent⟩ [] .none place word.chars =
      some ⟨word.text, [], place.right word.length, false⟩ := by
  have last := plain_append word.inner indent [] place []
  rw [List.append_nil, List.append_nil] at last
  rw [last, plain]
  simp [PlainWord.text, PlainWord.length, Between.brokeLine, Between.none]

/-- What stands at the start of a line closes a scalar that came before it. -/
def StartsLine (text : List Char) : Prop := ∀ c, text.head? = some c → IsOpening c

theorem plain_lineFeed (word : PlainWord) (place : Place) {rest : List Char}
    (starts : StartsLine rest) :
    plain ⟨false, 1⟩ [] .none place (word.chars ++ '\n' :: rest) =
      some ⟨word.text, rest, place.nextLine, true⟩ := by
  rw [plain_append word.inner, List.append_nil, plain]
  simp only [isGap, isBreak, Between.brokeLine, Between.none, Place.past, Between.add]
  cases rest with
  | nil => simp [plain, PlainWord.text, Between.brokeLine, Place.nextLine, Place.right]
  | cons c rest =>
    have opening := starts c rfl
    have leaves : leavesPlain ⟨false, 1⟩ (.breaks (some '\n') []) place.nextLine c rest = true := by
      simp [leavesPlain, Place.nextLine, Between.none]
    have same : (place.right word.chars.length).nextLine = place.nextLine := rfl
    simp [plain, opening.gap, opening.line, same, leaves, PlainWord.text, Between.brokeLine]

namespace Scan

/-- The blocks that are open between two lines: none before the first line of a mapping. -/
def columns (opened : Bool) : List Nat := if opened then [0] else []

def atLine (opened : Bool) (line : Nat) (made : List Token) (rest : List Char) : Scan :=
  ⟨rest, true, ⟨line, 0, 0⟩, columns opened, none, [], true, made⟩

def inLine (opened : Bool) (line column : Nat) (candidate : Option Candidate) (made : List Token)
    (rest : List Char) : Scan :=
  ⟨rest, true, ⟨line, column, column⟩, columns opened, candidate, [], false, made⟩

theorem closeBlocks_columns {s : Scan} (opened : Bool) (blocks : s.blocks = columns opened)
    (column : Nat) : s.closeBlocks (some column) = s := by
  unfold closeBlocks
  split
  · rfl
  · have shallow : s.blocks.takeWhile (fun block => decide (column < block)) = [] := by
      rw [blocks]
      cases opened <;> simp [columns]
    have kept : s.blocks.dropWhile (fun block => decide (column < block)) = s.blocks := by
      rw [blocks]
      cases opened <;> simp [columns]
    simp [shallow, kept]

theorem skipGaps_of_opening {c : Char} (opening : IsOpening c) (bracketed allowed : Bool)
    (place : Place) (rest : List Char) :
    skipGaps bracketed allowed false place (c :: rest) = (c :: rest, place, allowed) := by
  have gap := opening.gap
  simp only [isGap, Bool.or_eq_false_iff, beq_eq_false_iff_ne] at gap
  simp [skipGaps, opening.line, opening.hash, gap, isLineMark, opening.mark]

theorem marksDocument_of_ne {c : Char} (dash : c ≠ '-') (point : c ≠ '.') (place : Place)
    (rest : List Char) : marksDocument place (c :: rest) = false := by
  match rest with
  | [] | [_] => simp [marksDocument]
  | _ :: _ :: _ => simp [marksDocument, dash, point]

theorem token_of_opening {c : Char} (opening : IsOpening c) (s : Scan) (rest : List Char) :
    s.token c rest = s.plainScalar := by
  have signs := opening.sign
  have other {d : Char} (listed : d ∈ indicators) : c ≠ d := by
    rintro rfl
    exact signs listed
  have dash : c ≠ '-' := other (by decide)
  have free := marksDocument_of_ne dash opening.point s.place rest
  have starts : startsPlain s.bracketed c rest = true := by
    simp [startsPlain, opening.gap, signs]
  have signs : c ≠ '%' ∧ c ≠ '[' ∧ c ≠ '{' ∧ c ≠ ']' ∧ c ≠ '}' ∧ c ≠ ',' ∧ c ≠ '?' ∧
      c ≠ '\'' ∧ c ≠ '"' := by
    refine ⟨?_, ?_, ?_, ?_, ?_, ?_, ?_, ?_, ?_⟩ <;> exact other (by decide)
  rw [token, free, starts]
  simp [signs, dash, opening.colon]

theorem next_of_token {s after : Scan} (ready : Scan) {c : Char} {rest : List Char} (opened : Bool)
    (reached : s.toToken = ready) (kept : ready.expire = some ready)
    (blocks : ready.blocks = columns opened) (whole : ready.whole = true)
    (text : ready.rest = c :: rest) (made : ready.token c rest = some after)
    (ended : after.whole = true) : s.next = some after := by
  rw [next, reached, kept]
  simp only [Option.bind_eq_bind, Option.bind_some, closeBlocks_columns opened blocks, text, made]
  simp [lacks, whole, ended]

theorem plainScalar_eq {s saved : Scan} {scalar : Scalar} (save : s.saveCandidate = some saved)
    (read : plain ⟨s.bracketed, (s.blocks.head?.map (· + 1)).getD 0⟩ [] .none s.place s.rest =
      some scalar) : s.plainScalar = some (saved.emitScalar scalar true) := by
  rw [plainScalar]
  simp only [save, read, Option.bind_eq_bind, Option.bind_some, Option.pure_def]

theorem next_key (opened : Bool) (line : Nat) (made : List Token) (word : PlainWord)
    (rest : List Char) :
    (atLine opened line made (word.chars ++ ':' :: ' ' :: rest)).next =
      some (inLine opened line word.length (some ⟨made.length, ⟨line, 0, 0⟩, opened⟩)
        (⟨.scalar word.text true, ⟨line, 0, 0⟩⟩ :: made) (':' :: ' ' :: rest)) := by
  have opening := word.letter.opening
  have save : (atLine opened line made (word.chars ++ ':' :: ' ' :: rest)).saveCandidate =
      some { atLine opened line made (word.chars ++ ':' :: ' ' :: rest) with
        outer := some ⟨made.length, ⟨line, 0, 0⟩, opened⟩ } := by
    cases opened <;> rfl
  refine next_of_token (atLine opened line made (word.chars ++ ':' :: ' ' :: rest)) opened ?_ rfl
    rfl rfl rfl ?_ rfl
  · unfold toToken atLine
    rw [PlainWord.chars, List.cons_append, skipGaps_of_opening opening]
  · rw [token_of_opening opening, plainScalar_eq save (plain_colon word _ _ rest)]
    simp [atLine, inLine, emitScalar, emit, Place.right]

theorem putBefore_length {s : Scan} {newer older : List Token} (split : s.made = newer ++ older)
    (tokens : List Token) :
    s.putBefore older.length tokens = { s with made := newer ++ tokens ++ older } := by
  have later : s.made.length - older.length = newer.length := by
    rw [split, List.length_append, Nat.add_sub_cancel]
  rw [putBefore, later, split, List.take_left, List.drop_left]

theorem toToken_colon (opened : Bool) (line column : Nat) (candidate : Option Candidate)
    (made : List Token) (rest : List Char) :
    (inLine opened line column candidate made (':' :: ' ' :: rest)).toToken =
      inLine opened line column candidate made (':' :: ' ' :: rest) := by
  simp [toToken, inLine, skipGaps, isBreak, isLineMark]

theorem token_colon (opened : Bool) (line column : Nat) (candidate : Option Candidate)
    (made : List Token) (rest : List Char) :
    (inLine opened line column candidate made (':' :: ' ' :: rest)).token ':' (' ' :: rest) =
      (inLine opened line column candidate made (':' :: ' ' :: rest)).valueMark := by
  have free : marksDocument ⟨line, column, column⟩ (':' :: ' ' :: rest) = false :=
    marksDocument_of_ne (by decide) (by decide) _ _
  simp [token, inLine, free, endsWord, isGap]

theorem expire_key (opened : Bool) (line : Nat) {column : Nat} (older made : List Token)
    (rest : List Char) (required : Bool) (short : column ≤ 1024) :
    (inLine opened line column (some ⟨older.length, ⟨line, 0, 0⟩, required⟩) made rest).expire =
      some (inLine opened line column (some ⟨older.length, ⟨line, 0, 0⟩, required⟩) made rest) := by
  have kept : outdated ⟨line, column, column⟩ ⟨older.length, ⟨line, 0, 0⟩, required⟩ = false := by
    simp [outdated, short]
  simp [expire, inLine, keep, kept]

/-- The colon shows the candidate to be a key. The marks of the pair, and of the mapping with the
first pair, are put in front of it. -/
theorem next_colon (opened : Bool) (line column : Nat) (key : Token) (made : List Token)
    (rest : List Char) (required : Bool) (short : column ≤ 1024) :
    (inLine opened line column (some ⟨made.length, ⟨line, 0, 0⟩, required⟩) (key :: made)
        (':' :: ' ' :: rest)).next =
      some (inLine true line (column + 1) none
        (⟨.value, ⟨line, column, column⟩⟩ :: key :: ⟨.key, ⟨line, 0, 0⟩⟩ ::
          ((if opened then [] else [⟨.blockMapping, ⟨line, 0, 0⟩⟩]) ++ made)) (' ' :: rest)) := by
  refine next_of_token (inLine opened line column (some ⟨made.length, ⟨line, 0, 0⟩, required⟩)
    (key :: made) (':' :: ' ' :: rest)) opened ?_ ?_ rfl rfl rfl ?_ rfl
  · exact toToken_colon ..
  · exact expire_key opened line made (key :: made) _ required short
  · have keyed (s : Scan) (same : s.made = [key] ++ made) :=
      putBefore_length same [⟨.key, ⟨line, 0, 0⟩⟩]
    have opens (s : Scan) (same : s.made = [key, ⟨.key, ⟨line, 0, 0⟩⟩] ++ made) :=
      putBefore_length same [⟨.blockMapping, ⟨line, 0, 0⟩⟩]
    rw [token_colon]
    -- Only the first line of a mapping opens a block.
    cases opened <;>
      simp [inLine, valueMark, keyed, candidate, openBlock, bracketed, columns, opens,
        setCandidate, allowKey, emitOver, emit, step, Place.right]

theorem next_value (line column : Nat) (made : List Token) (word : PlainWord) {rest : List Char}
    {scalar : Scalar}
    (read : plain ⟨false, 1⟩ [] .none ⟨line, column + 1, column + 1⟩ (word.chars ++ rest) =
      some scalar) :
    (inLine true line column none made (' ' :: (word.chars ++ rest))).next =
      some ((inLine true line (column + 1) none made (word.chars ++ rest)).emitScalar scalar
        true) := by
  have opening := word.letter.opening
  refine next_of_token (inLine true line (column + 1) none made (word.chars ++ rest)) true ?_ rfl
    rfl rfl rfl ?_ rfl
  · have space : skipGaps false false false ⟨line, column, column⟩ (' ' :: (word.chars ++ rest)) =
        skipGaps false false false ⟨line, column + 1, column + 1⟩ (word.chars ++ rest) := rfl
    have stops := skipGaps_of_opening opening false false ⟨line, column + 1, column + 1⟩
      (word.later ++ rest)
    simp only [toToken, inLine, bracketed, List.isEmpty_nil, Bool.not_true, space]
    rw [PlainWord.chars, List.cons_append, stops]
  · have save : (inLine true line (column + 1) none made (word.chars ++ rest)).saveCandidate =
        some (inLine true line (column + 1) none made (word.chars ++ rest)) := rfl
    rw [token_of_opening opening, plainScalar_eq save read]

theorem next_value_end (line column : Nat) (made : List Token) (word : PlainWord) :
    (inLine true line column none made (' ' :: (word.chars ++ []))).next =
      some (inLine true line (column + 1 + word.length) none
        (⟨.scalar word.text true, ⟨line, column + 1, column + 1⟩⟩ :: made) []) := by
  have read := plain_end word 1 ⟨line, column + 1, column + 1⟩
  rw [← List.append_nil word.chars] at read
  exact next_value line column made word read

theorem next_value_lineFeed (line column : Nat) (made : List Token) (word : PlainWord)
    {rest : List Char} (starts : StartsLine rest) :
    (inLine true line column none made (' ' :: (word.chars ++ '\n' :: rest))).next =
      some (atLine true (line + 1)
        (⟨.scalar word.text true, ⟨line, column + 1, column + 1⟩⟩ :: made) rest) :=
  next_value line column made word (plain_lineFeed word _ starts)

theorem givenOut_of_none {s : Scan} (outer : s.outer = none) (inner : s.inner = []) :
    s.givenOut = s.made.reverse := by
  have cut : ((s.outer :: s.inner).filterMap fun c => c.map (·.index)).foldl min s.made.length =
      s.made.length := by
    rw [outer, inner]
    rfl
  simp only [givenOut, cut]
  exact List.take_of_length_le (Nat.le_of_eq s.made.length_reverse)

def Unended (made : List Token) : Prop := made.head?.any (·.sign == .endOfStream) = false

theorem run_of_next {s after : Scan} (limit : Nat) (sound : Scan) (made : s.next = some after)
    (kept : s.expire = some s) (unended : Unended s.made) :
    run (limit + 1) sound s = run limit s after := by
  have going : s.isFinished = false := unended
  rw [run, kept]
  simp [going, made]

theorem run_end (opened allowed : Bool) (line limit : Nat) (place : Place) (made : List Token)
    (sound : Scan) (unended : Unended made)
    (last : (if place.column = 0 then place else place.nextLine) = ⟨line, 0, 0⟩) :
    run (limit + 2) sound ⟨[], true, place, columns opened, none, [], allowed, made⟩ =
      made.reverse ++ given opened line [] := by
  have next : (⟨[], true, place, columns opened, none, [], allowed, made⟩ : Scan).next =
      some ⟨[], true, ⟨line, 0, 0⟩, [], none, [], false,
        (given opened line []).reverse ++ made⟩ := by
    have reached : (⟨[], true, place, columns opened, none, [], allowed, made⟩ : Scan).toToken =
        ⟨[], true, place, columns opened, none, [], allowed, made⟩ := rfl
    rw [next, reached]
    simp only [expire, Option.bind_eq_bind]
    cases opened <;>
      simp [keep, closeBlocks, bracketed, columns, lacks, finish, last, dropCandidate, candidate,
        setCandidate, allowKey, emit, given]
  rw [run_of_next _ _ next rfl unended, run]
  have finished : isFinished ⟨[], true, ⟨line, 0, 0⟩, [], none, [], false,
      (given opened line []).reverse ++ made⟩ = true := by
    cases opened <;> rfl
  simp only [expire, List.any_cons, List.any_nil, Option.any_none, Bool.or_self, Bool.false_eq_true,
    if_false, List.map_nil, keep, Option.filter_none, finished, if_true]
  rw [givenOut_of_none rfl rfl, List.reverse_append, List.reverse_reverse]

theorem next_stray (line column : Nat) (made : List Token) (rest : List Char) :
    (inLine false line column none made (':' :: ' ' :: rest)).next = none := by
  have kept : (inLine false line column none made (':' :: ' ' :: rest)).expire =
      some (inLine false line column none made (':' :: ' ' :: rest)) := rfl
  have refused := token_colon false line column none made rest
  simp only [inLine, valueMark, candidate, bracketed, List.headD_nil, List.isEmpty_nil,
    Bool.not_true, Bool.not_false, Bool.and_self, if_true] at refused
  rw [next, toToken_colon, kept]
  simp only [Option.bind_eq_bind, Option.bind_some]
  rw [closeBlocks_columns false rfl]
  simp [lacks, inLine, refused]

theorem run_long (opened : Bool) (line limit : Nat) (made : List Token) {s : Setting}
    (rest : List Char) (sound : Scan) (unended : Unended made) (long : s.isShort = false) :
    run (limit + 2) sound (atLine opened line made (s.line ++ rest)) =
      made.reverse ++ given opened line [s] := by
  have stale : outdated ⟨line, s.key.length, s.key.length⟩ ⟨made.length, ⟨line, 0, 0⟩, opened⟩ =
      true := by
    simpa [outdated, Setting.isShort] using long
  rw [s.line_append, run_of_next _ _ (next_key opened line made s.key _) rfl unended, run]
  cases opened with
  | true =>
    -- Inside a mapping a key is required, and the stream breaks off.
    have expired : expire (inLine true line s.key.length
        (some ⟨made.length, ⟨line, 0, 0⟩, true⟩) (⟨.scalar s.key.text true, ⟨line, 0, 0⟩⟩ :: made)
        (':' :: ' ' :: (s.value.chars ++ rest))) = none := by
      simp [expire, inLine, stale]
    rw [expired]
    simp [givenOut_of_none, atLine, given, long]
  | false =>
    -- Before any mapping the scalar stands alone, and its colon is out of place.
    have expired : expire (inLine false line s.key.length
        (some ⟨made.length, ⟨line, 0, 0⟩, false⟩) (⟨.scalar s.key.text true, ⟨line, 0, 0⟩⟩ :: made)
        (':' :: ' ' :: (s.value.chars ++ rest))) =
        some (inLine false line s.key.length none
          (⟨.scalar s.key.text true, ⟨line, 0, 0⟩⟩ :: made)
          (':' :: ' ' :: (s.value.chars ++ rest))) := by
      simp [expire, inLine, keep, stale]
    have going : (inLine false line s.key.length none
        (⟨.scalar s.key.text true, ⟨line, 0, 0⟩⟩ :: made)
        (':' :: ' ' :: (s.value.chars ++ rest))).isFinished = false := rfl
    simp only [expired, going, next_stray, Bool.false_eq_true, if_false]
    rw [givenOut_of_none rfl rfl]
    simp [inLine, given, long, Setting.keyPlace]

/-- What has been made when the value of a line comes next, newest first. -/
def begun (opened : Bool) (line : Nat) (s : Setting) (made : List Token) : List Token :=
  ⟨.value, ⟨line, s.key.length, s.key.length⟩⟩ :: ⟨.scalar s.key.text true, ⟨line, 0, 0⟩⟩ ::
    ⟨.key, ⟨line, 0, 0⟩⟩ :: ((if opened then [] else [⟨.blockMapping, ⟨line, 0, 0⟩⟩]) ++ made)

theorem value_cons_begun (opened : Bool) (line : Nat) (s : Setting) (made : List Token) :
    ⟨.scalar s.value.text true, s.valuePlace line⟩ :: begun opened line s made =
      (s.tokens opened line).reverse ++ made := by
  cases opened <;> rfl

theorem run_pair (opened : Bool) (line limit : Nat) (made : List Token) {s : Setting}
    (tail : List Char) (sound : Scan) (unended : Unended made) (short : s.isShort = true) :
    ∃ sound', run (limit + 2) sound (atLine opened line made (s.line ++ tail)) =
      run limit sound' (inLine true line (s.key.length + 1) none (begun opened line s made)
        (' ' :: (s.value.chars ++ tail))) := by
  have bound : s.key.length ≤ 1024 := of_decide_eq_true short
  have kept := expire_key opened line made (⟨.scalar s.key.text true, ⟨line, 0, 0⟩⟩ :: made)
    (':' :: ' ' :: (s.value.chars ++ tail)) opened bound
  rw [s.line_append, run_of_next _ _ (next_key opened line made s.key _) rfl unended,
    run_of_next _ _ (next_colon opened line _ _ made _ _ bound) kept rfl]
  exact ⟨_, rfl⟩

theorem run_line_end (opened : Bool) (line limit : Nat) (made : List Token) {s : Setting}
    (sound : Scan) (unended : Unended made) (short : s.isShort = true) :
    ∃ sound' column, column ≠ 0 ∧
      run (limit + 3) sound (atLine opened line made (s.line ++ [])) =
        run limit sound' (inLine true line column none ((s.tokens opened line).reverse ++ made)
          []) := by
  obtain ⟨sound', ran⟩ := run_pair opened line (limit + 1) made [] sound unended short
  have next := next_value_end line (s.key.length + 1) (begun opened line s made) s.value
  rw [ran, run_of_next _ _ next rfl rfl, ← value_cons_begun]
  exact ⟨_, s.key.length + 1 + 1 + s.value.length, by omega, rfl⟩

theorem run_line_lineFeed (opened : Bool) (line limit : Nat) (made : List Token) {s : Setting}
    {rest : List Char} (sound : Scan) (starts : StartsLine rest) (unended : Unended made)
    (short : s.isShort = true) :
    ∃ sound', run (limit + 3) sound (atLine opened line made (s.line ++ '\n' :: rest)) =
      run limit sound' (atLine true (line + 1) ((s.tokens opened line).reverse ++ made) rest) := by
  obtain ⟨sound', ran⟩ := run_pair opened line (limit + 1) made ('\n' :: rest) sound unended short
  have next := next_value_lineFeed line (s.key.length + 1) (begun opened line s made) s.value starts
  rw [ran, run_of_next _ _ next rfl rfl, ← value_cons_begun]
  exact ⟨_, rfl⟩

theorem startsLine_written (ended : Bool) (settings : List Setting) :
    StartsLine (written ended settings) := by
  intro c first
  cases settings with
  | nil => cases first
  | cons s rest =>
    cases first
    exact s.key.letter.opening

theorem run_written (ended : Bool) {opened : Bool} {line limit : Nat} {made : List Token}
    {settings : List Setting} (sound : Scan) (unended : Unended made)
    (enough : 3 * settings.length + 2 ≤ limit) :
    run limit sound (atLine opened line made (written ended settings)) =
      made.reverse ++ given opened line settings := by
  induction settings generalizing opened line limit made sound with
  | nil =>
    obtain ⟨limit, rfl⟩ := Nat.exists_eq_add_of_le' enough
    exact run_end opened true line limit ⟨line, 0, 0⟩ made sound unended rfl
  | cons s rest ih =>
    rw [List.length_cons] at enough
    obtain ⟨limit, rfl⟩ := Nat.exists_eq_add_of_le' (show 3 ≤ limit by omega)
    cases short : s.isShort with
    | false =>
      -- Nothing is given out from here on, whatever the later lines are.
      rw [written, run_long opened line (limit + 1) made _ sound unended short]
      simp [given, short]
    | true =>
      have later : Unended ((s.tokens opened line).reverse ++ made) := by
        rw [← value_cons_begun]
        rfl
      rw [written]
      cases last : rest.isEmpty && !ended with
      | true =>
        obtain ⟨sound', column, inside, ran⟩ := run_line_end opened line limit made sound unended
          short
        have closed : rest = [] := by simp_all
        obtain ⟨limit, rfl⟩ := Nat.exists_eq_add_of_le' (show 2 ≤ limit by omega)
        have ends := run_end true false (line + 1) limit ⟨line, column, column⟩ _ sound' later
          (by rw [if_neg inside]; rfl)
        rw [if_pos rfl, ran, inLine, ends, closed]
        simp [given, short]
      | false =>
        obtain ⟨sound', ran⟩ := run_line_lineFeed opened line limit made sound
          (startsLine_written ended rest) unended short
        rw [if_neg Bool.false_ne_true, ran, ih sound' later (by omega)]
        simp [given, short]

end Scan

theorem lineFeeds_eq {text : List Char} (feed : ∀ c ∈ text, c ≠ '\r' ∧ c ≠ '\u0085') :
    lineFeeds text = text := by
  induction text with
  | nil => rfl
  | cons c text ih =>
    obtain ⟨⟨carriage, next⟩, later⟩ := List.forall_mem_cons.1 feed
    rw [lineFeeds, ih later]
    · simp [carriage, next]
    · rintro rest rfl
      exact absurd rfl carriage

theorem mem_written (ended : Bool) (settings : List Setting) {c : Char}
    (member : c ∈ written ended settings) :
    isAllowed c = true ∧ c ≠ '\r' ∧ c ≠ '\u0085' := by
  induction settings with
  | nil => cases member
  | cons s rest ih =>
    have inner (word : PlainWord) (member : c ∈ word.chars) :=
      have inner := word.inner c member
      show isAllowed c = true ∧ c ≠ '\r' ∧ c ≠ '\u0085' from ⟨inner.allowed, inner.feed⟩
    rcases List.mem_append.1 member with here | later
    · rcases List.mem_append.1 here with key | behind
      · exact inner s.key key
      · rcases List.mem_cons.1 behind with rfl | behind
        · decide
        · rcases List.mem_cons.1 behind with rfl | value
          · decide
          · exact inner s.value value
    · split at later
      · cases later
      · rcases List.mem_cons.1 later with rfl | later
        · decide
        · exact ih later

theorem length_written (ended : Bool) (settings : List Setting) :
    3 * settings.length ≤ (written ended settings).length := by
  induction settings with
  | nil => exact Nat.le_refl _
  | cons s rest ih =>
    have line : 4 ≤ s.line.length := by
      simp [Setting.line, PlainWord.chars]
      omega
    rw [written, List.length_append, List.length_cons]
    split
    · next last =>
      have closed : rest = [] := by simp_all
      subst closed
      simp
      omega
    · rw [List.length_cons]
      omega

theorem tokens_written (ended : Bool) (settings : List Setting) :
    tokens (written ended settings) = given false 0 settings := by
  have read := readable_of_allowed (fun _ member => (mem_written ended settings member).1) []
    blockBytes
  have feeds := lineFeeds_eq fun _ member => (mem_written ended settings member).2
  have enough := Nat.add_le_add_right (length_written ended settings) 2
  have unended : Scan.Unended [] := rfl
  have start : Scan.start (written ended settings) true =
      Scan.atLine false 0 [] (written ended settings) := rfl
  rw [tokens, read, List.reverse_nil, List.nil_append]
  simp only [feeds, start]
  rw [Scan.run_written ended _ unended enough, List.reverse_nil, List.nil_append]

def partsOf (line : Nat) : List Setting → List Part
  | [] => []
  | s :: rest =>
    ⟨s.key.text, Setting.keyPlace line⟩ :: ⟨s.value.text, s.valuePlace line⟩ ::
      partsOf (line + 1) rest

theorem partsOf_append (line : Nat) (settings more : List Setting) :
    partsOf line (settings ++ more) =
      partsOf line settings ++ partsOf (line + settings.length) more := by
  induction settings generalizing line with
  | nil => rfl
  | cons s rest ih => simp [partsOf, ih, Nat.add_assoc, Nat.add_comm 1]

theorem length_partsOf (line : Nat) (settings : List Setting) :
    (partsOf line settings).length = 2 * settings.length := by
  induction settings generalizing line with
  | nil => rfl
  | cons s rest ih =>
    rw [partsOf, List.length_cons, List.length_cons, ih, List.length_cons]
    omega

theorem parts_given (expect : Expect) (atKey : ∀ token, Block.step expect token = Block.atKey token)
    (line : Nat) (settings : List Setting) :
    ∃ after, parts Block.step expect (given true line settings) =
        (partsOf line (settings.takeWhile Setting.isShort), after) ∧
      after.any endsStream = settings.all Setting.isShort := by
  induction settings generalizing expect line with
  | nil =>
    refine ⟨some [⟨.endOfStream, ⟨line, 0, 0⟩⟩], ?_, rfl⟩
    rw [given, if_pos rfl, List.singleton_append, parts, atKey]
    rfl
  | cons s rest ih =>
    cases short : s.isShort with
    | false =>
      refine ⟨none, ?_, ?_⟩
      · simp [given, short, parts, partsOf]
      · simp [short]
    | true =>
      obtain ⟨after, read, ends⟩ := ih .key (fun _ => rfl) (line + 1)
      refine ⟨after, ?_, ?_⟩
      · rw [given, if_pos short, Setting.tokens, if_pos rfl, List.nil_append]
        simp only [List.cons_append, List.nil_append, parts, atKey]
        simp [Block.atKey, Block.step, Block.atValue, Block.leavesOut, nodeAt, read, short, partsOf]
      · simpa [short] using ends

/-- The document of settings gives out its pairs up to the first key that is too long. If that is
the first key of all, there is no mapping. -/
theorem ofText?_written (ended : Bool) (s : Setting) (rest : List Setting) :
    Document.ofText? (written ended (s :: rest)) =
      if s.isShort then
        some ⟨.origin, partsOf 0 ((s :: rest).takeWhile Setting.isShort),
          (s :: rest).all Setting.isShort⟩
      else none := by
  rw [Document.ofText?, tokens_written]
  cases short : s.isShort with
  | false => simp [given, short, Document.ofTokens?, Document.ofRoot?]
  | true =>
    obtain ⟨after, read, ends⟩ := parts_given .opened (fun _ => rfl) 0 (s :: rest)
    have mapped : given false 0 (s :: rest) =
        ⟨.blockMapping, .origin⟩ :: given true 0 (s :: rest) := by
      simp [given, short, Setting.tokens, Setting.keyPlace, Place.origin]
    rw [mapped]
    simp only [Document.ofTokens?, Document.ofRoot?, read, ends]
    rfl

end RpcSchema.Yaml
