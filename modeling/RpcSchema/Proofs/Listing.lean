import RpcSchema.Proofs.Acceptance
import RpcSchema.Proofs.FieldSlots
import RpcSchema.Summary

/-! What a listing tells. Names and types of an accepted interface are made of name characters, and
the listing sets them apart by characters and indents that no name can hold: it is read back line by
line. The escape sequences of the coloured listing begin with a character that is in no name, so
that erasing them leaves the plain listing. -/
namespace RpcSchema

def IsNameText (text : String) : Prop := ∀ c ∈ text.toList, isNameChar c = true

structure Reference.Named (message : Reference) : Prop where
  name : IsNameText message.name
  fields : ∀ entry ∈ message.body.entries, IsNameText entry.1 ∧ IsNameText entry.2

structure Method.Named (m : Method) : Prop where
  name : IsNameText m.name
  request : m.request.Named
  response : m.response.Named

def Interface.Named (file : Interface) : Prop := ∀ m ∈ file.methods, m.Named

theorem OrderedMap.mem_of_mem_ofList {α : Type} {pairs : List (String × α)} {entry : String × α}
    (member : entry ∈ (ofList pairs).entries) : entry ∈ pairs := by
  have found := get?_of_mem member
  rw [get?_ofList, List.lookup_eq_some_iff] at found
  obtain ⟨later, earlier, split, _⟩ := found
  rw [← List.mem_reverse, split]
  simp

theorem MessagePhrase.named_body (m : MessagePhrase) :
    ∀ entry ∈ m.body.entries, IsNameText entry.1 ∧ IsNameText entry.2 := by
  intro entry member
  obtain ⟨field, _, rfl⟩ := List.mem_map.1 (OrderedMap.mem_of_mem_ofList member)
  exact ⟨field.name.named, field.type.named⟩

theorem named_latestBody {script : List Phrase} {name : String} {body : Body}
    (found : latestBody script name = some body) :
    ∀ entry ∈ body.entries, IsNameText entry.1 ∧ IsNameText entry.2 := by
  obtain ⟨phrase, _, given⟩ := List.exists_of_findSome?_eq_some found
  cases phrase with
  | message m =>
    obtain ⟨_, rfl⟩ : m.name.text = name ∧ m.body = body := by
      simpa [Phrase.bodyOf?] using given
    exact m.named_body
  | method _ _ _ | bare _ => cases given

theorem Phrase.named_method? {before : List Phrase} {phrase : Phrase} {m : Method}
    (read : phrase.method? before = some m) : m.Named := by
  cases phrase with
  | method name request response =>
    simp only [Phrase.method?] at read
    cases requested : latestBody before request.text with
    | none => simp [requested] at read
    | some body =>
      cases responded : latestBody before response.text with
      | none => simp [requested, responded] at read
      | some other =>
        simp only [requested, responded] at read
        cases read
        exact ⟨name.named, ⟨request.named, named_latestBody requested⟩,
          ⟨response.named, named_latestBody responded⟩⟩
  | message _ | bare _ => cases read

theorem named_of_mem_methodsAfter {before script : List Phrase} {m : Method}
    (member : m ∈ methodsAfter before script) : m.Named := by
  induction script generalizing before with
  | nil => cases member
  | cons phrase rest ih =>
    rcases List.mem_append.1 member with here | later
    · exact Phrase.named_method? (Option.mem_toList.1 here)
    · exact ih later

theorem SchemaReader.named_of_read {policy : Policy} {source : String} {file : Interface}
    (read : ((SchemaReader.fresh policy).read source).1 = .ok file) : file.Named := by
  rw [SchemaReader.read_fresh] at read
  cases ran : (readSource policy source).1 with
  | error e => rw [ran] at read; cases read
  | ok d =>
    rw [ran] at read
    cases read
    obtain ⟨script, _, interprets⟩ := readSource_ok ran
    have methods := (describes_nil.interprets interprets).1.methods
    intro m member
    rw [methods] at member
    exact named_of_mem_methodsAfter member

theorem name_cancel {name name' : String} {c c' : Char} {rest rest' : List Char}
    (named : IsNameText name) (named' : IsNameText name')
    (same : name.toList ++ c :: rest = name'.toList ++ c' :: rest')
    (sign : isNameChar c = false) (sign' : isNameChar c' = false) :
    name = name' ∧ c = c' ∧ rest = rest' := by
  have taken := congrArg (List.takeWhile isNameChar) same
  rw [takeWhile_append_of_endsName named ((endsName_cons c rest).2 sign),
    takeWhile_append_of_endsName named' ((endsName_cons c' rest').2 sign')] at taken
  rw [taken] at same
  exact ⟨String.toList_inj.1 taken, List.cons.inj (List.append_cancel_left same)⟩

namespace Summary

def shown (row : List Piece) : List Char := row.flatMap fun piece => piece.text.toList

theorem toList_plain (file : Interface) : (plain file).toList = shown (pieces file) := by
  rw [plain, String.toList_join, List.flatMap_map]
  rfl

@[simp] theorem shown_append (row row' : List Piece) :
    shown (row ++ row') = shown row ++ shown row' := List.flatMap_append

@[simp] theorem shown_cons (piece : Piece) (row : List Piece) :
    shown (piece :: row) = piece.text.toList ++ shown row := List.flatMap_cons

@[simp] theorem shown_nil : shown [] = [] := rfl

def fieldRow (entries : List (String × String)) : List Piece :=
  entries.map fun (name, type) => field name type

theorem shown_fieldRow_cons (entry : String × String) (entries : List (String × String))
    (rest : List Char) :
    shown (fieldRow (entry :: entries)) ++ rest =
      [' ', ' ', ' ', ' '] ++ (entry.1.toList ++ (':' :: ' ' ::
        (entry.2.toList ++ '\n' :: (shown (fieldRow entries) ++ rest)))) := by
  change (field entry.1 entry.2).text.toList ++ shown (fieldRow entries) ++ rest = _
  simp [field]

theorem shown_reference (heading : String) (message : Reference) (rest : List Char) :
    shown (reference heading message) ++ rest =
      heading.toList ++ (message.name.toList ++ '\n' ::
        (shown (fieldRow message.body.entries) ++ rest)) := by
  change heading.toList ++ ((message.name ++ "\n").toList ++
    shown (fieldRow message.body.entries)) ++ rest = _
  simp

theorem shown_method (m : Method) (rest : List Char) :
    shown (method m) ++ rest =
      m.name.toList ++ '(' :: (m.request.name.toList ++ ([')', ' ', '-', '>', ' '] ++
        (m.response.name.toList ++ '\n' :: (shown (reference "  request  " m.request) ++
          (shown (reference "  response " m.response) ++ rest))))) := by
  simp [method]

/-- A text that cannot go on a row of field lines. -/
def Unindented (text : List Char) : Prop := ∀ rest, text ≠ [' ', ' ', ' ', ' '] ++ rest

theorem unindented_cons {c : Char} (solid : c ≠ ' ') (rest : List Char) : Unindented (c :: rest) :=
  fun _ same => solid (List.cons.inj same).1

theorem unindented_name {name : String} (named : IsNameText name) {c : Char} {later : List Char}
    (first : name.toList = c :: later) (rest : List Char) : Unindented (c :: later ++ rest) := by
  have listed := named c (by simp [first])
  exact unindented_cons (ne_space_of_not_isBlank (not_isBlank_of_isNameChar listed)) _

theorem fieldRow_cancel {entries entries' : List (String × String)} {rest rest' : List Char}
    (named : ∀ entry ∈ entries, IsNameText entry.1 ∧ IsNameText entry.2)
    (named' : ∀ entry ∈ entries', IsNameText entry.1 ∧ IsNameText entry.2)
    (ends : Unindented rest) (ends' : Unindented rest')
    (same : shown (fieldRow entries) ++ rest = shown (fieldRow entries') ++ rest') :
    entries = entries' ∧ rest = rest' := by
  induction entries generalizing entries' with
  | nil =>
    cases entries' with
    | nil => exact ⟨rfl, same⟩
    | cons entry' entries' =>
      rw [shown_fieldRow_cons] at same
      exact absurd same (ends _)
  | cons entry entries ih =>
    cases entries' with
    | nil =>
      rw [shown_fieldRow_cons] at same
      exact absurd same.symm (ends' _)
    | cons entry' entries' =>
      obtain ⟨⟨named, types⟩, later⟩ := List.forall_mem_cons.1 named
      obtain ⟨⟨named', types'⟩, later'⟩ := List.forall_mem_cons.1 named'
      rw [shown_fieldRow_cons, shown_fieldRow_cons] at same
      obtain ⟨name, _, left⟩ := name_cancel named named' (List.append_cancel_left same) rfl rfl
      obtain ⟨type, _, left⟩ := name_cancel types types' (List.cons.inj left).2 rfl rfl
      obtain ⟨rfl, rfl⟩ := ih later later' left
      exact ⟨by rw [Prod.ext name type], rfl⟩

theorem reference_cancel (heading : String) {message message' : Reference}
    {rest rest' : List Char} (named : message.Named) (named' : message'.Named)
    (ends : Unindented rest) (ends' : Unindented rest')
    (same : shown (reference heading message) ++ rest =
      shown (reference heading message') ++ rest') : message = message' ∧ rest = rest' := by
  rw [shown_reference, shown_reference] at same
  obtain ⟨name, _, left⟩ := name_cancel named.name named'.name (List.append_cancel_left same) rfl
    rfl
  obtain ⟨entries, rest⟩ := fieldRow_cancel named.fields named'.fields ends ends' left
  obtain ⟨_, body⟩ := message
  obtain ⟨_, body'⟩ := message'
  cases name
  cases OrderedMap.ext entries
  exact ⟨rfl, rest⟩

theorem unindented_reference (message : Reference) (rest : List Char) :
    Unindented (shown (reference "  response " message) ++ rest) := by
  intro more same
  rw [shown_reference] at same
  exact absurd (List.cons.inj (List.cons.inj (List.cons.inj same).2).2).1 (by decide)

theorem method_cancel {m m' : Method} {rest rest' : List Char} (named : m.Named)
    (named' : m'.Named) (ends : Unindented rest) (ends' : Unindented rest')
    (same : shown (method m) ++ rest = shown (method m') ++ rest') : m = m' ∧ rest = rest' := by
  rw [shown_method, shown_method] at same
  obtain ⟨name, _, left⟩ := name_cancel named.name named'.name same rfl rfl
  obtain ⟨_, _, left⟩ := name_cancel named.request.name named'.request.name left rfl rfl
  obtain ⟨_, _, left⟩ := name_cancel named.response.name named'.response.name
    (@List.append_cancel_left _ [' ', '-', '>', ' '] _ _ left) rfl rfl
  obtain ⟨request, left⟩ := reference_cancel _ named.request named'.request
    (unindented_reference _ _) (unindented_reference _ _) left
  obtain ⟨response, rest⟩ := reference_cancel _ named.response named'.response ends ends' left
  obtain ⟨_, _, _⟩ := m
  obtain ⟨_, _, _⟩ := m'
  cases name
  cases request
  cases response
  exact ⟨rfl, rest⟩

def closing (file : Interface) : Piece :=
  if file.methods.isEmpty then ⟨.plain, "no methods declared\n"⟩
  else ⟨.total, toString file.size ++ " method(s)\n"⟩

theorem pieces_eq (file : Interface) :
    pieces file = file.methods.flatMap method ++ [closing file] := by
  unfold pieces closing
  split
  · next none => rw [List.isEmpty_iff.1 none]; rfl
  · rfl

/-- A text that cannot go on a row of methods: its first word is set off by a space, where that of a
method is set off by a parenthesis. -/
def Closes (text : List Char) : Prop :=
  ∃ (word : String) (rest : List Char), IsNameText word ∧ word.toList ≠ [] ∧
    text = word.toList ++ ' ' :: rest

theorem isNameText_toString (n : Nat) : IsNameText (toString n) := by
  intro c member
  rw [Nat.toString_eq_ofList_toDigits, String.toList_ofList] at member
  have digit := Nat.isDigit_of_mem_toDigits (by decide) (by decide) member
  rw [Char.isDigit, Bool.and_eq_true, decide_eq_true_eq, decide_eq_true_eq] at digit
  have range : '0' ≤ c ∧ c ≤ '9' := digit
  simp [isNameChar, range]

theorem toString_nat_ne_nil (n : Nat) : (toString n).toList ≠ [] := by
  rw [Nat.toString_eq_ofList_toDigits, String.toList_ofList]
  exact Nat.toDigits_ne_nil

theorem closes_closing (file : Interface) : Closes (closing file).text.toList := by
  unfold closing
  split
  · exact ⟨"no", "methods declared\n".toList, List.all_eq_true.1 (by decide), by decide,
      by decide⟩
  · exact ⟨toString file.size, "method(s)\n".toList, isNameText_toString _,
      toString_nat_ne_nil _, by simp⟩

theorem Closes.unindented {text : List Char} (closes : Closes text) : Unindented text := by
  obtain ⟨word, rest, named, filled, rfl⟩ := closes
  obtain ⟨c, later, first⟩ := List.exists_cons_of_ne_nil filled
  rw [first]
  exact unindented_name named first _

theorem unindented_method {m : Method} (named : m.Named) (rest : List Char) :
    Unindented (shown (method m) ++ rest) := by
  rw [shown_method]
  cases first : m.name.toList with
  | nil => exact unindented_cons (by decide) _
  | cons c later => exact unindented_name named.name first _

theorem Closes.ne_method {text : List Char} (closes : Closes text) {m : Method} (named : m.Named)
    (rest : List Char) : text ≠ shown (method m) ++ rest := by
  obtain ⟨word, more, spelled, _, rfl⟩ := closes
  intro same
  rw [shown_method] at same
  exact absurd (name_cancel spelled named.name same rfl rfl).2.1 (by decide)

theorem methods_cancel {methods methods' : List Method} {ending ending' : List Char}
    (named : ∀ m ∈ methods, m.Named) (named' : ∀ m ∈ methods', m.Named)
    (closes : Closes ending) (closes' : Closes ending')
    (same : shown (methods.flatMap method) ++ ending = shown (methods'.flatMap method) ++ ending') :
    methods = methods' := by
  -- Behind a method there is another one or the end.
  have ends {later : List Method} {ending : List Char} (closes : Closes ending)
      (named : ∀ m ∈ later, m.Named) : Unindented (shown (later.flatMap method) ++ ending) := by
    cases later with
    | nil => exact closes.unindented
    | cons m later =>
      rw [List.flatMap_cons, shown_append, List.append_assoc]
      exact unindented_method (List.forall_mem_cons.1 named).1 _
  induction methods generalizing methods' with
  | nil =>
    cases methods' with
    | nil => rfl
    | cons m' methods' =>
      rw [List.flatMap_cons, shown_append, List.append_assoc] at same
      exact absurd same (closes.ne_method (List.forall_mem_cons.1 named').1 _)
  | cons m methods ih =>
    rw [List.flatMap_cons, shown_append, List.append_assoc] at same
    cases methods' with
    | nil => exact absurd same.symm (closes'.ne_method (List.forall_mem_cons.1 named).1 _)
    | cons m' methods' =>
      rw [List.flatMap_cons, shown_append, List.append_assoc] at same
      obtain ⟨here, later⟩ := List.forall_mem_cons.1 named
      obtain ⟨here', later'⟩ := List.forall_mem_cons.1 named'
      obtain ⟨rfl, left⟩ := method_cancel here here' (ends closes later) (ends closes' later') same
      rw [ih later later' left]

theorem plain_inj {file file' : Interface} (named : file.Named) (named' : file'.Named) :
    plain file = plain file' ↔ file = file' := by
  refine ⟨fun same => ?_, fun same => by rw [same]⟩
  have texts := congrArg String.toList same
  rw [toList_plain, toList_plain, pieces_eq, pieces_eq, shown_append, shown_append] at texts
  have ends (file : Interface) : Closes (shown [closing file]) := by
    rw [shown_cons, shown_nil, List.append_nil]
    exact closes_closing file
  have methods := methods_cancel named named' (ends _) (ends _) texts
  obtain ⟨_⟩ := file
  obtain ⟨_⟩ := file'
  cases methods
  rfl

end Summary

/-- The length of the escape sequence whose first character stands before the text, without that
character: a bracket, digits and a final letter. -/
def sequenceLength? : List Char → Option Nat
  | '[' :: rest =>
    let digits := rest.takeWhile Char.isDigit
    if digits ≠ [] ∧ (rest.drop digits.length).head? = some 'm' then some (digits.length + 2)
    else none
  | _ => none

/-- Leaves out so many characters, and after them every escape sequence. -/
def eraseEscapes : (skipped : Nat) → List Char → List Char
  | _, [] => []
  | skipped + 1, _ :: rest => eraseEscapes skipped rest
  | 0, c :: rest =>
    if c = '\x1b' then
      match sequenceLength? rest with
      | some length => eraseEscapes length rest
      | none => c :: eraseEscapes 0 rest
    else c :: eraseEscapes 0 rest

def withoutEscapes (text : String) : String := String.ofList (eraseEscapes 0 text.toList)

theorem eraseEscapes_skip (text rest : List Char) :
    eraseEscapes text.length (text ++ rest) = eraseEscapes 0 rest := by
  induction text with
  | nil => rfl
  | cons c text ih => exact ih

theorem eraseEscapes_append {text : List Char} (clean : '\x1b' ∉ text) (rest : List Char) :
    eraseEscapes 0 (text ++ rest) = text ++ eraseEscapes 0 rest := by
  induction text with
  | nil => rfl
  | cons c text ih =>
    rw [List.mem_cons, not_or] at clean
    rw [List.cons_append, eraseEscapes, if_neg (Ne.symm clean.1), ih clean.2, List.cons_append]

theorem toList_escapeCode (code : Nat) (rest : List Char) :
    (escapeCode code).toList ++ rest =
      '\x1b' :: '[' :: ((toString code).toList ++ 'm' :: rest) := by
  simp [escapeCode]

theorem takeWhile_isDigit_toString (code : Nat) (rest : List Char) :
    ((toString code).toList ++ 'm' :: rest).takeWhile Char.isDigit = (toString code).toList := by
  rw [Nat.toString_eq_ofList_toDigits, String.toList_ofList, List.takeWhile_append_of_pos
    fun c member => Nat.isDigit_of_mem_toDigits (by decide) (by decide) member]
  exact List.append_nil _

theorem sequenceLength?_code (code : Nat) (rest : List Char) :
    sequenceLength? ('[' :: ((toString code).toList ++ 'm' :: rest)) =
      some ((toString code).toList.length + 2) := by
  rw [sequenceLength?, takeWhile_isDigit_toString, List.drop_left]
  exact if_pos ⟨Summary.toString_nat_ne_nil code, rfl⟩

theorem eraseEscapes_escapeCode (code : Nat) (rest : List Char) :
    eraseEscapes 0 ((escapeCode code).toList ++ rest) = eraseEscapes 0 rest := by
  have skip := eraseEscapes_skip ('[' :: ((toString code).toList ++ ['m'])) rest
  rw [toList_escapeCode, eraseEscapes, if_pos rfl, sequenceLength?_code]
  simpa using skip

theorem eraseEscapes_codes (codes : List Nat) (rest : List Char) :
    eraseEscapes 0 ((codes.map escapeCode).flatMap String.toList ++ rest) =
      eraseEscapes 0 rest := by
  induction codes with
  | nil => rfl
  | cons code codes ih =>
    rw [List.map_cons, List.flatMap_cons, List.append_assoc, eraseEscapes_escapeCode, ih]

theorem Piece.eraseEscapes_coloured {piece : Piece} (clean : '\x1b' ∉ piece.text.toList)
    (rest : List Char) :
    eraseEscapes 0 (piece.coloured.toList ++ rest) =
      piece.text.toList ++ eraseEscapes 0 rest := by
  obtain ⟨style, text⟩ := piece
  cases style with
  | plain => exact eraseEscapes_append clean rest
  | title | faint | total =>
    simp only [Piece.coloured, String.toList_append, String.toList_join, List.append_assoc]
    rw [eraseEscapes_codes, eraseEscapes_append clean, eraseEscapes_escapeCode]

theorem eraseEscapes_row {row : List Piece} (clean : ∀ piece ∈ row, '\x1b' ∉ piece.text.toList) :
    eraseEscapes 0 (row.flatMap fun piece => piece.coloured.toList) = Summary.shown row := by
  induction row with
  | nil => rfl
  | cons piece row ih =>
    obtain ⟨here, later⟩ := List.forall_mem_cons.1 clean
    rw [List.flatMap_cons, Piece.eraseEscapes_coloured here, ih later, Summary.shown_cons]

theorem IsNameText.escape_not_mem {text : String} (named : IsNameText text) :
    '\x1b' ∉ text.toList := by
  intro member
  cases named _ member

namespace Summary

theorem clean_reference {heading : String} (headed : '\x1b' ∉ heading.toList)
    {message : Reference} (named : message.Named) :
    ∀ piece ∈ reference heading message, '\x1b' ∉ piece.text.toList := by
  refine List.forall_mem_cons.2 ⟨headed, List.forall_mem_cons.2 ⟨?_, List.forall_mem_map.2 ?_⟩⟩
  · simpa using named.name.escape_not_mem
  · intro entry member
    obtain ⟨name, type⟩ := named.fields entry member
    simpa [field] using ⟨name.escape_not_mem, type.escape_not_mem⟩

theorem clean_method {m : Method} (named : m.Named) :
    ∀ piece ∈ method m, '\x1b' ∉ piece.text.toList := by
  intro piece member
  rcases List.mem_append.1 member with first | response
  · rcases List.mem_append.1 first with line | request
    · rcases List.mem_cons.1 line with rfl | line
      · exact named.name.escape_not_mem
      · rw [List.mem_singleton] at line
        subst line
        simpa using ⟨named.request.name.escape_not_mem, named.response.name.escape_not_mem⟩
    · exact clean_reference (by decide) named.request piece request
  · exact clean_reference (by decide) named.response piece response

theorem clean_closing (file : Interface) : '\x1b' ∉ (closing file).text.toList := by
  unfold closing
  split
  · decide
  · simpa using (isNameText_toString file.size).escape_not_mem

theorem withoutEscapes_coloured {file : Interface} (named : file.Named) :
    withoutEscapes (coloured file) = plain file := by
  have clean : ∀ piece ∈ pieces file, '\x1b' ∉ piece.text.toList := by
    rw [pieces_eq]
    intro piece member
    rcases List.mem_append.1 member with listed | last
    · obtain ⟨m, declared, part⟩ := List.mem_flatMap.1 listed
      exact clean_method (named m declared) piece part
    · rw [List.mem_singleton] at last
      subst last
      exact clean_closing file
  apply String.toList_inj.1
  rw [withoutEscapes, String.toList_ofList, coloured, String.toList_join, List.flatMap_map,
    eraseEscapes_row clean, toList_plain]

end Summary

/-- Interfaces that are read from sources have the same plain listing only if they are the same,
field by field in order. A coloured listing is the plain one once its escape sequences are erased.
-/
theorem listing_determines_interface {policy policy' : Policy} {source source' : String}
    {file file' : Interface}
    (read : ((SchemaReader.fresh policy).read source).1 = .ok file)
    (read' : ((SchemaReader.fresh policy').read source').1 = .ok file') :
    (Summary.plain file = Summary.plain file' ↔ file = file') ∧
      (Summary.coloured file = Summary.coloured file' ↔ file = file') ∧
      withoutEscapes (Summary.coloured file) = Summary.plain file ∧
      withoutEscapes (Summary.coloured file') = Summary.plain file' := by
  have named := SchemaReader.named_of_read read
  have named' := SchemaReader.named_of_read read'
  have erased := Summary.withoutEscapes_coloured named
  have erased' := Summary.withoutEscapes_coloured named'
  refine ⟨Summary.plain_inj named named', ⟨fun same => ?_, fun same => by rw [same]⟩, erased,
    erased'⟩
  apply (Summary.plain_inj named named').1
  rw [← erased, ← erased', same]

/-- The same interface out of two sources, with names that read like parts of escape sequences and
one source ending in a word that declares nothing. -/
theorem listing_determines_interface_of_bracketed_names :
    let source := "message [0m\x7b[1m:31m,m:[0m\x7d method [36m([0m)->[0m;"
    let source' := "message [0m\x7b[1m:31m,m:[0m,\x7d#\nmethod [36m([0m)->[0m; 0m"
    ∃ file file',
      ((SchemaReader.fresh .lenient).read source).1 = .ok file ∧
      ((SchemaReader.fresh .lenient).read source').1 = .ok file' ∧
      (Summary.plain file = Summary.plain file' ↔ file = file') ∧
      (Summary.coloured file = Summary.coloured file' ↔ file = file') ∧
      withoutEscapes (Summary.coloured file) = Summary.plain file ∧
      withoutEscapes (Summary.coloured file') = Summary.plain file' := by
  intro source source'
  have answers {source : String}
      (accepted : ((SchemaReader.fresh .lenient).read source).1.isOk = true) :
      ∃ file, ((SchemaReader.fresh .lenient).read source).1 = .ok file := by
    match read : ((SchemaReader.fresh .lenient).read source).1 with
    | .ok file => exact ⟨file, rfl⟩
    | .error e =>
      rw [read] at accepted
      cases accepted
  have accepted : ((SchemaReader.fresh .lenient).read source).1.isOk = true := by decide +kernel
  have accepted' : ((SchemaReader.fresh .lenient).read source').1.isOk = true := by decide +kernel
  obtain ⟨file, read⟩ := answers accepted
  obtain ⟨file', read'⟩ := answers accepted'
  exact ⟨file, file', read, read', listing_determines_interface read read'⟩

end RpcSchema
