import Mathlib.Data.String.Basic
import RpcSchema.Proofs.Acceptance
import RpcSchema.Proofs.AsciiFront

/-! Spans of characters. In any text the span of a position begins and ends between characters and
cuts out the one that stands there. For a source that is refused the position and the byte offset
are the same number, and what the failure names stands at the span. -/
namespace RpcSchema

theorem utf8Length_eq_utf8Len (chars : List Char) : utf8Length chars = String.utf8Len chars := by
  induction chars with
  | nil => rfl
  | cons c rest ih => rw [utf8Length, String.utf8Len_cons, ih, Nat.add_comm]

theorem utf8ByteSize_ofList_eq (chars : List Char) :
    (String.ofList chars).utf8ByteSize = utf8Length chars := by
  rw [String.utf8ByteSize_ofList, utf8Length_eq_utf8Len]

theorem utf8Length_of_ascii {chars : List Char} (ascii : ∀ c ∈ chars, c.toNat < 128) :
    utf8Length chars = chars.length := by
  induction chars with
  | nil => rfl
  | cons c rest ih =>
    have ⟨first, later⟩ := List.forall_mem_cons.1 ascii
    have small : c.val.toNat ≤ 127 := Nat.le_of_lt_succ first
    have one : c.utf8Size = 1 := Char.utf8Size_eq_one_iff.2 (UInt32.le_iff_toNat_le.2 small)
    rw [utf8Length, one, ih later, List.length_cons, Nat.add_comm]

theorem isValid_utf8Length (front back : List Char) :
    String.Pos.Raw.IsValid (String.ofList (front ++ back)) ⟨utf8Length front⟩ := by
  refine String.Pos.Raw.isValid_iff_exists_append.2
    ⟨String.ofList front, String.ofList back, String.ofList_append, ?_⟩
  rw [String.rawEndPos_ofList, utf8Length_eq_utf8Len]

theorem extract_utf8Length (front middle back : List Char) :
    String.Pos.Raw.extract (String.ofList (front ++ middle ++ back)) ⟨utf8Length front⟩
      ⟨utf8Length front + utf8Length middle⟩ = String.ofList middle := by
  rw [utf8Length_eq_utf8Len, utf8Length_eq_utf8Len]
  exact String.extract_of_valid front middle back

section

variable (chars : List Char) (n : Nat)

theorem split_around :
    chars = chars.take n ++ (chars.drop n).take 1 ++ (chars.drop n).drop 1 := by
  rw [List.append_assoc, List.take_append_drop, List.take_append_drop]

theorem take_one_drop : (chars.drop n).take 1 = chars[n]?.toList := by
  rw [List.take_one, List.head?_drop]

theorem spanAt_length : (spanAt chars n).length = utf8Length chars[n]?.toList := by
  rw [spanAt, take_one_drop]

theorem isValid_spanAt :
    String.Pos.Raw.IsValid (String.ofList chars) ⟨(spanAt chars n).offset⟩ ∧
      String.Pos.Raw.IsValid (String.ofList chars)
        ⟨(spanAt chars n).offset + (spanAt chars n).length⟩ := by
  have start := isValid_utf8Length (chars.take n) (chars.drop n)
  have stop := isValid_utf8Length (chars.take n ++ (chars.drop n).take 1) ((chars.drop n).drop 1)
  rw [List.take_append_drop] at start
  rw [← split_around, utf8Length_append] at stop
  exact ⟨start, stop⟩

theorem extract_spanAt :
    String.Pos.Raw.extract (String.ofList chars) ⟨(spanAt chars n).offset⟩
      ⟨(spanAt chars n).offset + (spanAt chars n).length⟩ = String.ofList chars[n]?.toList := by
  have cut := extract_utf8Length (chars.take n) ((chars.drop n).take 1) ((chars.drop n).drop 1)
  rw [← split_around, take_one_drop] at cut
  rw [spanAt_length]
  exact cut

theorem extract_from_spanAt :
    String.Pos.Raw.extract (String.ofList chars) ⟨(spanAt chars n).offset⟩
      (String.ofList chars).rawEndPos = String.ofList (chars.drop n) := by
  have cut := extract_utf8Length (chars.take n) (chars.drop n) []
  rw [← utf8Length_append, List.append_nil, List.take_append_drop, utf8Length_eq_utf8Len chars,
    ← String.rawEndPos_ofList] at cut
  exact cut

end

namespace Buffer.AsciiTo

variable {b : Buffer} {p : Nat}

theorem of_mem_take (front : b.AsciiTo p) : ∀ c ∈ b.chars.toList.take p, c.toNat < 128 := by
  intro c member
  obtain ⟨i, here⟩ := List.mem_iff_getElem?.1 member
  rw [List.getElem?_take] at here
  split at here
  · next before =>
    rw [← b.get?_eq_getElem?] at here
    exact front i before c here
  · cases here

theorem spanAt_offset (front : b.AsciiTo p) (inside : p ≤ b.size) :
    (spanAt b.chars.toList p).offset = p := by
  have whole := utf8Length_of_ascii front.of_mem_take
  have size : p ≤ b.chars.toList.length := by simpa [Buffer.size] using inside
  rw [List.length_take, Nat.min_eq_left size] at whole
  exact whole

end Buffer.AsciiTo

theorem Buffer.spanAt_length_pos {b : Buffer} {p : Nat} (inside : p < b.size) :
    0 < (spanAt b.chars.toList p).length := by
  rw [spanAt_length, ← b.get?_eq_getElem?]
  cases here : b.get? p with
  | none => exact absurd ((b.get?_eq_none_iff p).1 here) (Nat.not_le.2 inside)
  | some c => exact Nat.lt_of_lt_of_le c.utf8Size_pos (Nat.le_add_right _ _)

/-- The text begins with what a failure of reading is about: the name of a message, the brace that
follows a comma, or the character that no branch can begin with. Sources are not refused for any
other cause. -/
def Cause.Heads (cause : Cause) (text : List Char) : Prop :=
  match cause with
  | .undefinedMessage _ name | .duplicateMessage name => name.toList ≠ [] ∧ name.toList <+: text
  | .danglingComma _ => ['\x7d'] <+: text
  | .noBranch _ found => ∃ c, found = some c ∧ [c] <+: text
  | .endOfInput _ | .wrongChar _ _ | .wrongKeyword _ | .badRange _ | .alreadySpent
  | .internal _ => False

theorem Buffer.Refuses.heads {b : Buffer} {policy : Policy} {e : Failure}
    (refuses : b.Refuses policy e) : e.cause.Heads (b.tail e.position) := by
  have word {text : List Char} (same : text = b.wordAt e.position) :
      text <+: b.tail e.position := by
    rw [same]
    exact List.takeWhile_prefix _
  have one {c : Char} (found : b.get? e.position = some c) : [c] <+: b.tail e.position := by
    rw [Buffer.tail_of_get? found]
    exact List.prefix_append [c] _
  obtain ⟨_, known⟩ := refuses
  cases cause : e.cause with
  | noBranch rules found =>
    rw [cause] at known
    obtain ⟨_, here, c, same, _⟩ := known
    exact ⟨c, same, one (here.symm.trans same)⟩
  | undefinedMessage role name =>
    rw [cause] at known
    exact ⟨known.1, word known.2⟩
  | duplicateMessage name =>
    rw [cause] at known
    exact ⟨known.2.1, word known.2.2⟩
  | danglingComma found =>
    rw [cause] at known
    exact one known.2.2
  | endOfInput _ | wrongChar _ _ | wrongKeyword _ | badRange _ | alreadySpent | internal _ =>
    rw [cause] at known
    exact known.elim

/-- The span of a position cuts out the character that stands there. The one span that is reported
of a source that is refused lies in the normal form, is not empty, starts at the position of the
failure, and begins what the failure is about. -/
theorem spans_cut_out_what_stands_there :
    (∀ (content : String) (n : Nat),
      let span := spanAt content.toList n
      span.offset =
        (String.ofList (content.toList.take (min n content.toList.length))).utf8ByteSize ∧
      (∀ c, content.toList[n]? = some c → span.length = c.utf8Size) ∧
      (content.toList.length ≤ n → span.length = 0) ∧
      span.offset + span.length ≤ content.utf8ByteSize ∧
      String.Pos.Raw.IsValid content ⟨span.offset⟩ ∧
      String.Pos.Raw.IsValid content ⟨span.offset + span.length⟩ ∧
      String.Pos.Raw.extract content ⟨span.offset⟩ ⟨span.offset + span.length⟩ =
        String.ofList content.toList[n]?.toList) ∧
    ∀ (policy : Policy) (name source : String) (trouble : Trouble) (after : SchemaReader),
      (SchemaReader.fresh policy).readNamed name source = (.error trouble, after) →
      let text := (Buffer.ofSource source).text
      ∃ e label, trouble = .unparsed e ⟨name, text⟩ ∧ trouble.report.labels = [label] ∧
        label.sourceName = name ∧
        (∀ c ∈ text.toList.take e.position, c.toNat < 128) ∧
        label.span.offset = e.position ∧ 0 < label.span.length ∧
        label.span.offset + label.span.length ≤ text.utf8ByteSize ∧
        e.cause.Heads (String.Pos.Raw.extract text ⟨label.span.offset⟩ text.rawEndPos).toList := by
  refine ⟨fun content n => ?_, fun policy name source trouble after failed => ?_⟩
  · have valid := isValid_spanAt content.toList n
    have cut := extract_spanAt content.toList n
    have inside := spanAt_le content.toList n
    rw [← utf8ByteSize_ofList_eq] at inside
    rw [String.ofList_toList] at valid cut inside
    refine ⟨?_, fun c here => ?_, fun past => ?_, inside, valid.1, valid.2, cut⟩
    · rw [utf8ByteSize_ofList_eq, ← List.take_eq_take_min]
      rfl
    · rw [spanAt_length, here]
      rfl
    · rw [spanAt_length, List.getElem?_eq_none past]
      rfl
  · obtain ⟨e, rfl, read⟩ := SchemaReader.readNamed_fresh_error failed
    have refuses := readSource_error read
    -- Whatever stands behind it, what was read up to the failure is ASCII, one byte a character.
    have front := asciiTo_of_readSource read
    have chars : (Buffer.ofSource source).text.toList = (Buffer.ofSource source).chars.toList :=
      String.toList_ofList
    have offset := front.spanAt_offset (Nat.le_of_lt refuses.1)
    have length := Buffer.spanAt_length_pos refuses.1
    have inside := spanAt_le (Buffer.ofSource source).chars.toList e.position
    have behind := extract_from_spanAt (Buffer.ofSource source).chars.toList e.position
    rw [← utf8ByteSize_ofList_eq] at inside
    refine ⟨e, ⟨e.cause.label, spanAt (Buffer.ofSource source).text.toList e.position, name, _⟩,
      rfl, rfl, rfl, ?_, ?_⟩
    · rw [chars]
      exact front.of_mem_take
    · dsimp only
      rw [chars]
      refine ⟨offset, length, inside, ?_⟩
      rw [Buffer.text, behind, String.toList_ofList]
      exact refuses.heads

/-- A character of three bytes behind one of two, and a source that is refused where a name is not
defined, with a character of two bytes behind it. -/
theorem spans_cut_out_what_stands_there_of_undefined :
    let content := "aé€"
    let source := "# ü\nmethod m(B)->B; é"
    let text := "method m(B)->B; é"
    spanAt content.toList 2 = ⟨3, 3⟩ ∧ String.Pos.Raw.extract content ⟨3⟩ ⟨6⟩ = "€" ∧
      ∃ trouble after, (SchemaReader.fresh .lenient).readNamed "x" source = (.error trouble, after) ∧
        ∃ e label, trouble = .unparsed e ⟨"x", text⟩ ∧ trouble.report.labels = [label] ∧
          label.span.offset = e.position ∧ 0 < label.span.length ∧
          e.cause.Heads (String.Pos.Raw.extract text ⟨label.span.offset⟩ text.rawEndPos).toList := by
  intro content source text
  obtain ⟨spans, refused⟩ := spans_cut_out_what_stands_there
  obtain ⟨_, _, _, _, _, _, cut⟩ := spans content 2
  have span : spanAt content.toList 2 = ⟨3, 3⟩ := by decide +kernel
  have third : content.toList[2]? = some '€' := by decide +kernel
  rw [span, third] at cut
  refine ⟨span, cut, ?_⟩
  have failed : ((SchemaReader.fresh .lenient).readNamed "x" source).1.isOk = false := by
    decide +kernel
  have normal : (Buffer.ofSource source).text = text := by decide +kernel
  match read : (SchemaReader.fresh .lenient).readNamed "x" source with
  | (.ok file, after) =>
    rw [read] at failed
    cases failed
  | (.error trouble, after) =>
    obtain ⟨e, label, same, labels, _, _, offset, length, _, heads⟩ := refused _ _ _ _ _ read
    rw [normal] at same heads
    exact ⟨trouble, after, rfl, e, label, same, labels, offset, length, heads⟩

end RpcSchema
