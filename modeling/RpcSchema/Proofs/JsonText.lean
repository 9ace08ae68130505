import RpcSchema.Blank
import RpcSchema.Json

/-! What JSON text tells. The compact text of a value can be read back, whatever follows it, and so
it tells interfaces apart. The indented text differs from it only in blanks between tokens. -/
namespace RpcSchema

namespace Json

def hexValue (c : Char) : Nat := if c.toNat < 58 then c.toNat - 48 else c.toNat - 87

/-- The character that is written by an escape, given what stands behind its backslash, and the
text that is left. -/
def readEscape : List Char → Option (Char × List Char)
  | [] => none
  | 'b' :: rest => some ('\x08', rest)
  | 'f' :: rest => some ('\x0c', rest)
  | 'n' :: rest => some ('\n', rest)
  | 'r' :: rest => some ('\r', rest)
  | 't' :: rest => some ('\t', rest)
  | 'u' :: '0' :: '0' :: high :: low :: rest =>
    some (Char.ofNat (16 * hexValue high + hexValue low), rest)
  | c :: rest => some (c, rest)

/-- The next character of a string literal and the text that is left, none where the literal
ends. -/
def readChar : List Char → Option (Char × List Char)
  | [] => none
  | c :: rest =>
    if c = '"' then none else if c = '\\' then readEscape rest else some (c, rest)

theorem hexValue_hexDigit : ∀ n < 16, hexValue (hexDigit n) = n := by decide

theorem escape_cases (c : Char) :
    (escape c = [c] ∧ c ≠ '"' ∧ c ≠ '\\') ∨
      (∃ letter, escape c = ['\\', letter] ∧ ∀ rest, readEscape (letter :: rest) = some (c, rest)) ∨
      (escape c = '\\' :: 'u' :: ['0', '0', hexDigit (c.toNat / 16), hexDigit (c.toNat % 16)] ∧
        c.toNat < 32) := by
  unfold escape
  split
  · next same => exact .inr (.inl ⟨'"', rfl, fun _ => by rw [same]; rfl⟩)
  split
  · next same => exact .inr (.inl ⟨'\\', rfl, fun _ => by rw [same]; rfl⟩)
  split
  · next same => exact .inr (.inl ⟨'b', rfl, fun _ => by rw [same]; rfl⟩)
  split
  · next same => exact .inr (.inl ⟨'f', rfl, fun _ => by rw [same]; rfl⟩)
  split
  · next same => exact .inr (.inl ⟨'n', rfl, fun _ => by rw [same]; rfl⟩)
  split
  · next same => exact .inr (.inl ⟨'r', rfl, fun _ => by rw [same]; rfl⟩)
  split
  · next same => exact .inr (.inl ⟨'t', rfl, fun _ => by rw [same]; rfl⟩)
  split
  · next control => exact .inr (.inr ⟨rfl, control⟩)
  · next quotation backslash _ _ _ _ _ _ => exact .inl ⟨rfl, quotation, backslash⟩

theorem readChar_escape (c : Char) (rest : List Char) :
    readChar (escape c ++ rest) = some (c, rest) := by
  rcases escape_cases c with
    ⟨plain, quotation, backslash⟩ | ⟨letter, short, read⟩ | ⟨coded, control⟩
  · rw [plain, List.singleton_append, readChar, if_neg quotation, if_neg backslash]
  · rw [short]
    exact read rest
  · have high := hexValue_hexDigit (c.toNat / 16) (by omega)
    have low := hexValue_hexDigit (c.toNat % 16) (by omega)
    have whole : 16 * (c.toNat / 16) + c.toNat % 16 = c.toNat := Nat.div_add_mod _ _
    rw [coded]
    change some (Char.ofNat (16 * hexValue (hexDigit (c.toNat / 16)) +
      hexValue (hexDigit (c.toNat % 16))), rest) = _
    rw [high, low, whole, Char.ofNat_toNat]

theorem escaped_cancel {text text' rest rest' : List Char}
    (same : text.flatMap escape ++ '"' :: rest = text'.flatMap escape ++ '"' :: rest') :
    text = text' ∧ rest = rest' := by
  have ends (more : List Char) : readChar ('"' :: more) = none := rfl
  induction text generalizing text' with
  | nil =>
    cases text' with
    | nil => exact ⟨rfl, (List.cons.inj same).2⟩
    | cons c' text' =>
      have read := congrArg readChar same
      rw [List.flatMap_cons, List.append_assoc, readChar_escape] at read
      cases (ends rest).symm.trans read
  | cons c text ih =>
    have read := congrArg readChar same
    rw [List.flatMap_cons, List.append_assoc, readChar_escape] at read
    cases text' with
    | nil => cases read.trans (ends rest')
    | cons c' text' =>
      rw [List.flatMap_cons, List.append_assoc, readChar_escape] at read
      obtain ⟨rfl, later⟩ := Prod.mk.inj (Option.some.inj read)
      obtain ⟨rfl, left⟩ := ih later
      exact ⟨rfl, left⟩

theorem quote_cancel {text text' : String} {rest rest' : List Char}
    (same : quote text ++ rest = quote text' ++ rest') : text = text' ∧ rest = rest' := by
  simp only [quote, List.cons_append, List.append_assoc, List.nil_append] at same
  obtain ⟨texts, left⟩ := escaped_cancel (List.cons.inj same).2
  exact ⟨String.toList_inj.1 texts, left⟩

theorem exists_write_eq_cons (layout : Layout) (depth : Nat) (json : Json) :
    ∃ c rest, write layout depth json = c :: rest ∧ c ≠ ']' ∧ c ≠ '}' := by
  cases json with
  | string text => exact ⟨'"', _, rfl, by decide, by decide⟩
  | array items => exact ⟨'[', _, rfl, by decide, by decide⟩
  | object members => exact ⟨'{', _, rfl, by decide, by decide⟩

theorem writeItems_nil (depth : Nat) (first : Bool) :
    writeItems .compact depth first [] = [']'] := by
  cases first <;> rfl

theorem writeItems_cons_append (depth : Nat) (first : Bool) (item : Json) (items : List Json)
    (rest : List Char) :
    writeItems .compact depth first (item :: items) ++ rest =
      comma first ++ (write .compact (depth + 1) item ++
        (writeItems .compact depth false items ++ rest)) := by
  simp only [writeItems, Layout.newline, List.append_nil, List.append_assoc]

theorem writeMembers_nil (depth : Nat) (first : Bool) :
    writeMembers .compact depth first [] = ['}'] := by
  cases first <;> rfl

theorem writeMembers_cons_append (depth : Nat) (first : Bool) (name : String) (value : Json)
    (members : List (String × Json)) (rest : List Char) :
    writeMembers .compact depth first ((name, value) :: members) ++ rest =
      comma first ++ (quote name ++ ':' :: (write .compact (depth + 1) value ++
        (writeMembers .compact depth false members ++ rest))) := by
  simp only [writeMembers, Layout.newline, Layout.colon, List.append_nil, List.append_assoc,
    List.cons_append, List.nil_append]

theorem writeItems_cons_ne_close (depth : Nat) (first : Bool) (item : Json) (items : List Json)
    (rest rest' : List Char) :
    writeItems .compact depth first (item :: items) ++ rest ≠ ']' :: rest' := by
  intro same
  obtain ⟨c, more, starts, closes, _⟩ := exists_write_eq_cons .compact (depth + 1) item
  rw [writeItems_cons_append, starts] at same
  cases first with
  | true => exact closes (List.cons.inj same).1
  | false => cases (List.cons.inj same).1

theorem writeMembers_cons_ne_close (depth : Nat) (first : Bool) (member : String × Json)
    (members : List (String × Json)) (rest rest' : List Char) :
    writeMembers .compact depth first (member :: members) ++ rest ≠ '}' :: rest' := by
  intro same
  rw [writeMembers_cons_append] at same
  cases first <;> cases (List.cons.inj same).1

mutual

/-- Compact text is read back value by value, by its brackets, commas and quotation marks. -/
theorem write_cancel (depth depth' : Nat) (json json' : Json) (rest rest' : List Char)
    (same : write .compact depth json ++ rest = write .compact depth' json' ++ rest') :
    json = json' ∧ rest = rest' := by
  match json, json' with
  | .string text, .string text' =>
    obtain ⟨rfl, left⟩ := quote_cancel same
    exact ⟨rfl, left⟩
  | .array items, .array items' =>
    obtain ⟨rfl, left⟩ := writeItems_cancel depth depth' true items items' rest rest'
      (List.cons.inj same).2
    exact ⟨rfl, left⟩
  | .object members, .object members' =>
    obtain ⟨rfl, left⟩ := writeMembers_cancel depth depth' true members members' rest rest'
      (List.cons.inj same).2
    exact ⟨rfl, left⟩
  | .string _, .array _ | .string _, .object _ | .array _, .string _ | .array _, .object _
  | .object _, .string _ | .object _, .array _ => cases (List.cons.inj same).1

theorem writeItems_cancel (depth depth' : Nat) (first : Bool) (items items' : List Json)
    (rest rest' : List Char)
    (same : writeItems .compact depth first items ++ rest =
      writeItems .compact depth' first items' ++ rest') : items = items' ∧ rest = rest' := by
  match items, items' with
  | [], [] =>
    rw [writeItems_nil, writeItems_nil] at same
    exact ⟨rfl, (List.cons.inj same).2⟩
  | [], item' :: items' =>
    rw [writeItems_nil] at same
    exact absurd same.symm (writeItems_cons_ne_close _ _ _ _ _ _)
  | item :: items, [] =>
    rw [writeItems_nil] at same
    exact absurd same (writeItems_cons_ne_close _ _ _ _ _ _)
  | item :: items, item' :: items' =>
    rw [writeItems_cons_append, writeItems_cons_append] at same
    obtain ⟨rfl, later⟩ := write_cancel _ _ item item' _ _ (List.append_cancel_left same)
    obtain ⟨rfl, left⟩ := writeItems_cancel depth depth' false items items' rest rest' later
    exact ⟨rfl, left⟩

theorem writeMembers_cancel (depth depth' : Nat) (first : Bool)
    (members members' : List (String × Json)) (rest rest' : List Char)
    (same : writeMembers .compact depth first members ++ rest =
      writeMembers .compact depth' first members' ++ rest') :
    members = members' ∧ rest = rest' := by
  match members, members' with
  | [], [] =>
    rw [writeMembers_nil, writeMembers_nil] at same
    exact ⟨rfl, (List.cons.inj same).2⟩
  | [], member' :: members' =>
    rw [writeMembers_nil] at same
    exact absurd same.symm (writeMembers_cons_ne_close _ _ _ _ _ _)
  | member :: members, [] =>
    rw [writeMembers_nil] at same
    exact absurd same (writeMembers_cons_ne_close _ _ _ _ _ _)
  | (name, value) :: members, (name', value') :: members' =>
    rw [writeMembers_cons_append, writeMembers_cons_append] at same
    obtain ⟨rfl, behind⟩ := quote_cancel (List.append_cancel_left same)
    obtain ⟨rfl, later⟩ := write_cancel _ _ value value' _ _ (List.cons.inj behind).2
    obtain ⟨rfl, left⟩ := writeMembers_cancel depth depth' false members members' rest rest' later
    exact ⟨rfl, left⟩

end

theorem text_compact_inj {json json' : Json} :
    json.text .compact = json'.text .compact ↔ json = json' := by
  refine ⟨fun same => ?_, fun same => by rw [same]⟩
  have chars : write .compact 0 json ++ [] = write .compact 0 json' ++ [] := by
    rw [List.append_nil, List.append_nil]
    exact String.ofList_injective same
  exact (write_cancel 0 0 json json' [] [] chars).1

/-- Where a reader of JSON text is: between string literals, in one, or behind a backslash there. -/
inductive Reader where
  | outside
  | inside
  | escaped

/-- The text without the blanks that stand outside of string literals. -/
def withoutBlanks : Reader → List Char → List Char
  | _, [] => []
  | .outside, c :: rest =>
    if c = '"' then c :: withoutBlanks .inside rest
    else if isBlank c then withoutBlanks .outside rest
    else c :: withoutBlanks .outside rest
  | .inside, c :: rest =>
    if c = '"' then c :: withoutBlanks .outside rest
    else if c = '\\' then c :: withoutBlanks .escaped rest
    else c :: withoutBlanks .inside rest
  | .escaped, c :: rest => c :: withoutBlanks .inside rest

theorem withoutBlanks_inside {text : List Char} (plain : ∀ c ∈ text, c ≠ '"' ∧ c ≠ '\\')
    (rest : List Char) :
    withoutBlanks .inside (text ++ rest) = text ++ withoutBlanks .inside rest := by
  induction text with
  | nil => rfl
  | cons c text ih =>
    have ⟨⟨quotation, backslash⟩, others⟩ := List.forall_mem_cons.1 plain
    rw [List.cons_append, withoutBlanks, if_neg quotation, if_neg backslash, ih others]
    rfl

theorem hexDigit_plain : ∀ n < 16, hexDigit n ≠ '"' ∧ hexDigit n ≠ '\\' := by decide

theorem withoutBlanks_escape (c : Char) (rest : List Char) :
    withoutBlanks .inside (escape c ++ rest) = escape c ++ withoutBlanks .inside rest := by
  rcases escape_cases c with ⟨plain, quotation, backslash⟩ | ⟨letter, short, _⟩ | ⟨coded, control⟩
  · rw [plain]
    exact withoutBlanks_inside (List.forall_mem_singleton.2 ⟨quotation, backslash⟩) rest
  · rw [short]
    rfl
  · have high := hexDigit_plain (c.toNat / 16) (by omega)
    have low := hexDigit_plain (c.toNat % 16) (by omega)
    have digits : ∀ d ∈ ['0', '0', hexDigit (c.toNat / 16), hexDigit (c.toNat % 16)],
        d ≠ '"' ∧ d ≠ '\\' := by
      simp [high, low]
    rw [coded]
    exact congrArg ('\\' :: 'u' :: ·) (withoutBlanks_inside digits rest)

theorem withoutBlanks_quote (text : String) (rest : List Char) :
    withoutBlanks .outside (quote text ++ rest) = quote text ++ withoutBlanks .outside rest := by
  have inner (chars : List Char) :
      withoutBlanks .inside (chars.flatMap escape ++ '"' :: rest) =
        chars.flatMap escape ++ '"' :: withoutBlanks .outside rest := by
    induction chars with
    | nil => rfl
    | cons c chars ih =>
      rw [List.flatMap_cons, List.append_assoc, withoutBlanks_escape, ih, List.append_assoc]
  simp only [quote, List.cons_append, List.append_assoc, List.nil_append]
  exact congrArg ('"' :: ·) (inner text.toList)

theorem withoutBlanks_token {c : Char} (quotation : c ≠ '"') (solid : isBlank c = false)
    (rest : List Char) :
    withoutBlanks .outside (c :: rest) = c :: withoutBlanks .outside rest := by
  rw [withoutBlanks, if_neg quotation, solid]
  rfl

theorem withoutBlanks_blanks {blanks : List Char} (all : ∀ c ∈ blanks, c ≠ '"' ∧ isBlank c = true)
    (rest : List Char) :
    withoutBlanks .outside (blanks ++ rest) = withoutBlanks .outside rest := by
  induction blanks with
  | nil => rfl
  | cons c blanks ih =>
    have ⟨⟨quotation, blank⟩, others⟩ := List.forall_mem_cons.1 all
    rw [List.cons_append, withoutBlanks, if_neg quotation, if_pos blank, ih others]

theorem withoutBlanks_newline (layout : Layout) (depth : Nat) (rest : List Char) :
    withoutBlanks .outside (layout.newline depth ++ rest) = withoutBlanks .outside rest := by
  apply withoutBlanks_blanks
  cases layout with
  | compact => exact fun c member => absurd member List.not_mem_nil
  | indented =>
    refine List.forall_mem_cons.2 ⟨⟨by decide, isBlank_newline⟩, fun c member => ?_⟩
    rw [List.eq_of_mem_replicate member]
    exact ⟨by decide, isBlank_space⟩

theorem withoutBlanks_comma (first : Bool) (rest : List Char) :
    withoutBlanks .outside (comma first ++ rest) = comma first ++ withoutBlanks .outside rest := by
  cases first with
  | true => rfl
  | false => exact withoutBlanks_token (by decide) (by decide) rest

theorem withoutBlanks_colon (layout : Layout) (rest : List Char) :
    withoutBlanks .outside (layout.colon ++ rest) = ':' :: withoutBlanks .outside rest := by
  have colon := withoutBlanks_token (c := ':') (by decide) (by decide)
  cases layout with
  | compact => exact colon rest
  | indented => exact colon (' ' :: rest)

theorem withoutBlanks_close (layout : Layout) (depth : Nat) (first : Bool) {close : Char}
    (quotation : close ≠ '"') (solid : isBlank close = false) (rest : List Char) :
    withoutBlanks .outside ((if first then [] else layout.newline depth) ++ [close] ++ rest) =
      close :: withoutBlanks .outside rest := by
  have token := withoutBlanks_token quotation solid rest
  cases first with
  | true => exact token
  | false =>
    rw [List.append_assoc]
    exact (withoutBlanks_newline layout depth _).trans token

mutual

/-- In either layout and at any depth, a value without its blanks is its compact text. -/
theorem withoutBlanks_write (layout : Layout) (depth depth' : Nat) (json : Json)
    (rest : List Char) :
    withoutBlanks .outside (write layout depth json ++ rest) =
      write .compact depth' json ++ withoutBlanks .outside rest := by
  match json with
  | .string text => exact withoutBlanks_quote text rest
  | .array items =>
    rw [write, List.cons_append, withoutBlanks_token (by decide) (by decide),
      withoutBlanks_writeItems layout depth depth' true items rest]
    rfl
  | .object members =>
    rw [write, List.cons_append, withoutBlanks_token (by decide) (by decide),
      withoutBlanks_writeMembers layout depth depth' true members rest]
    rfl

theorem withoutBlanks_writeItems (layout : Layout) (depth depth' : Nat) (first : Bool)
    (items : List Json) (rest : List Char) :
    withoutBlanks .outside (writeItems layout depth first items ++ rest) =
      writeItems .compact depth' first items ++ withoutBlanks .outside rest := by
  match items with
  | [] =>
    rw [writeItems_nil]
    exact withoutBlanks_close layout depth first (by decide) (by decide) rest
  | item :: items =>
    rw [writeItems_cons_append, writeItems]
    simp only [List.append_assoc]
    rw [withoutBlanks_comma, withoutBlanks_newline,
      withoutBlanks_write layout (depth + 1) (depth' + 1) item,
      withoutBlanks_writeItems layout depth depth' false items rest]

theorem withoutBlanks_writeMembers (layout : Layout) (depth depth' : Nat) (first : Bool)
    (members : List (String × Json)) (rest : List Char) :
    withoutBlanks .outside (writeMembers layout depth first members ++ rest) =
      writeMembers .compact depth' first members ++ withoutBlanks .outside rest := by
  match members with
  | [] =>
    rw [writeMembers_nil]
    exact withoutBlanks_close layout depth first (by decide) (by decide) rest
  | (name, value) :: members =>
    rw [writeMembers_cons_append, writeMembers]
    simp only [List.append_assoc]
    rw [withoutBlanks_comma, withoutBlanks_newline, withoutBlanks_quote, withoutBlanks_colon,
      withoutBlanks_write layout (depth + 1) (depth' + 1) value,
      withoutBlanks_writeMembers layout depth depth' false members rest]

end

end Json

theorem Body.toJson_inj {body body' : Body} : Body.toJson body = Body.toJson body' ↔
    body = body' := by
  refine ⟨fun same => OrderedMap.ext ?_, fun same => by rw [same]⟩
  apply (List.map_inj_right fun entry entry' members => ?_).1 (Json.object.inj same)
  obtain ⟨names, types⟩ := Prod.mk.inj members
  exact Prod.ext names (Json.string.inj types)

theorem Reference.toJson_inj {reference reference' : Reference} :
    reference.toJson = reference'.toJson ↔ reference = reference' := by
  obtain ⟨name, body⟩ := reference
  obtain ⟨name', body'⟩ := reference'
  simp [toJson, Body.toJson_inj]

theorem Method.toJson_inj {method method' : Method} :
    method.toJson = method'.toJson ↔ method = method' := by
  obtain ⟨name, request, response⟩ := method
  obtain ⟨name', request', response'⟩ := method'
  simp [toJson, Reference.toJson_inj]

theorem Interface.toJson_inj {file file' : Interface} :
    file.toJson = file'.toJson ↔ file = file' := by
  obtain ⟨methods⟩ := file
  obtain ⟨methods'⟩ := file'
  simp [toJson, List.map_inj_right fun _ _ => Method.toJson_inj.1]

/-- Interfaces have the same compact text only if they are the same, field by field in order. The
printed form is the compact text again once the blanks outside of its string literals are dropped.
-/
theorem json_text_determines_interface (file file' : Interface) :
    (file.toJson.text .compact = file'.toJson.text .compact ↔ file = file') ∧
      Json.withoutBlanks .outside file.printed.toList = (file.toJson.text .compact).toList := by
  refine ⟨Json.text_compact_inj.trans Interface.toJson_inj, ?_⟩
  have written := Json.withoutBlanks_write .indented 0 0 file.toJson ['\n']
  have ended : Json.withoutBlanks .outside ['\n'] = [] := by decide
  rw [ended, List.append_nil] at written
  simp only [Interface.printed, Json.text, String.toList_append, String.toList_ofList]
  exact written

end RpcSchema
