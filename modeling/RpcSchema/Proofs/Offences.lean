import Mathlib.Data.List.Perm.Basic
import Mathlib.Data.List.TakeWhile
import RpcSchema.PolicyDocument
import RpcSchema.Proofs.FieldSlots
import RpcSchema.Proofs.MappingLines

/-! What is wrong with a policy document of plain words. The pairs are judged in order, each behind
those before it and its key before its value, and the first pair that offends is reported. A
document without such a pair sets what it says, whatever the order of its lines. -/
namespace RpcSchema

open Yaml (PlainWord Setting plain_of_all)

/-- The keys that are known, each with its words. -/
def settingWords : List (String × List String) :=
  [("duplicate-messages", ["overwrite", "reject"]), ("trailing-comma", ["allow", "reject"])]

def Yaml.Setting.pair (s : Setting) : String × String := (s.key.text, s.value.text)

/-- What is wrong with a setting behind others. A key that comes again is reported where the mapping
starts. -/
def Yaml.Setting.fault? (before : List Setting) (s : Setting) : Option DocumentFault :=
  match settingWords.lookup s.key.text with
  | none => some (.unknownField s.key.text (Setting.keyPlace before.length))
  | some words =>
    if s.key.text ∈ before.map (·.key.text) then some (.duplicateField s.key.text .origin)
    else if s.value.text ∈ words then none
    else some (.unknownWord s.key.text s.value.text words (s.valuePlace before.length))

/-- No setting of a row offends, where the row comes behind others. -/
def Faultless : (before : List Setting) → List Setting → Prop
  | _, [] => True
  | before, s :: rest => s.fault? before = none ∧ Faultless (before ++ [s]) rest

/-- The document of a text begins with the keys and values of the settings, as they are written. -/
def Delivers (text : String) (settings : List Setting) : Prop :=
  ∃ document, Yaml.Document.ofText? text.toList = some document ∧
    Yaml.partsOf 0 settings <+: document.parts

theorem faultless_append (before settings more : List Setting) :
    Faultless before (settings ++ more) ↔
      Faultless before settings ∧ Faultless (before ++ settings) more := by
  induction settings generalizing before with
  | nil => simp [Faultless]
  | cons s rest ih => simp [Faultless, ih, and_assoc]

theorem exists_first_fault {before settings : List Setting} (faulty : ¬Faultless before settings) :
    ∃ clean s after fault, settings = clean ++ s :: after ∧ Faultless before clean ∧
      s.fault? (before ++ clean) = some fault := by
  induction settings generalizing before with
  | nil => exact absurd trivial faulty
  | cons s rest ih =>
    cases judged : s.fault? before with
    | some fault => exact ⟨[], s, rest, fault, rfl, trivial, by simpa using judged⟩
    | none =>
      obtain ⟨clean, t, after, fault, rfl, faultless, found⟩ :=
        ih fun faultless => faulty ⟨judged, faultless⟩
      exact ⟨s :: clean, t, after, fault, rfl, ⟨judged, faultless⟩, by simpa using found⟩

theorem faultless_iff_forall {settings : List Setting} :
    Faultless [] settings ↔
      ∀ before s after, settings = before ++ s :: after → s.fault? before = none := by
  constructor
  · rintro faultless before s after rfl
    exact ((faultless_append [] before (s :: after)).1 faultless).2.1
  · intro clean
    by_contra faulty
    obtain ⟨before, s, after, fault, split, _, found⟩ := exists_first_fault faulty
    rw [List.nil_append, clean before s after split] at found
    cases found

namespace PolicyField

def chosen? (field : PolicyField) (made : Choices) : Option String :=
  match field with
  | duplicates => made.duplicates.map OnDuplicate.word
  | trailingComma => made.trailingComma.map OnTrailingComma.word

theorem isMade_eq (field : PolicyField) (made : Choices) :
    field.isMade made = (field.chosen? made).isSome := by
  cases field <;> simp [isMade, chosen?]

theorem ofName?_name (field : PolicyField) : ofName? field.name = some field := by
  cases field <;> decide

theorem lookup_name (field : PolicyField) : settingWords.lookup field.name = some field.words := by
  cases field <;> decide

theorem ofName?_cases (text : String) :
    (∃ field : PolicyField, text = field.name) ∨
      ofName? text = none ∧ settingWords.lookup text = none := by
  by_cases duplicate : text = duplicates.name
  · exact .inl ⟨_, duplicate⟩
  · by_cases comma : text = trailingComma.name
    · exact .inl ⟨_, comma⟩
    · refine .inr ⟨?_, ?_⟩
      · simp [ofName?, Ne.symm duplicate, Ne.symm comma]
      · simp only [name] at duplicate comma
        simp [settingWords, List.lookup_cons, beq_eq_false_iff_ne.2 duplicate,
          beq_eq_false_iff_ne.2 comma]

theorem name_injective {field other : PolicyField} (same : field.name = other.name) :
    field = other := by
  have named := ofName?_name field
  rw [same, ofName?_name] at named
  exact (Option.some.inj named).symm

theorem choose?_of_mem {field : PolicyField} {word : String} (listed : word ∈ field.words)
    (made : Choices) :
    ∃ next, field.choose? word made = some next ∧ field.chosen? next = some word ∧
      ∀ other, other ≠ field → other.chosen? next = other.chosen? made := by
  cases field with
  | duplicates =>
    simp only [words, List.mem_cons, List.not_mem_nil, or_false] at listed
    rcases listed with rfl | rfl <;>
      exact ⟨_, rfl, rfl, fun other differs => by cases other <;> [exact absurd rfl differs; rfl]⟩
  | trailingComma =>
    simp only [words, List.mem_cons, List.not_mem_nil, or_false] at listed
    rcases listed with rfl | rfl <;>
      exact ⟨_, rfl, rfl, fun other differs => by cases other <;> [rfl; exact absurd rfl differs]⟩

theorem choose?_of_not_mem {field : PolicyField} {word : String} (other : word ∉ field.words)
    (made : Choices) : field.choose? word made = none := by
  cases field <;>
    simp only [words, List.mem_cons, List.not_mem_nil, or_false, not_or] at other <;>
    simp [choose?, OnDuplicate.ofWord?, OnTrailingComma.ofWord?, Ne.symm other.1, Ne.symm other.2]

end PolicyField

/-- The choices made are those that the settings say. -/
def Choices.Reflects (made : Choices) (settings : List Setting) : Prop :=
  ∀ field : PolicyField, field.chosen? made = (settings.map Setting.pair).lookup field.name

theorem reflects_none : Choices.none.Reflects [] := fun field => by cases field <;> rfl

theorem lookup_pair_isSome (settings : List Setting) (name : String) :
    ((settings.map Setting.pair).lookup name).isSome = true ↔
      name ∈ settings.map (·.key.text) := by
  induction settings with
  | nil => simp
  | cons s rest ih =>
    rw [List.map_cons, Setting.pair, List.lookup_cons, List.map_cons, List.mem_cons]
    by_cases same : name = s.key.text
    · simp [same]
    · rw [beq_eq_false_iff_ne.2 same]
      simpa [same] using ih

namespace Yaml.Setting

variable {before : List Setting} {s : Setting} {field : PolicyField}

theorem fault?_of_name (named : s.key.text = field.name) :
    s.fault? before =
      if field.name ∈ before.map (·.key.text) then some (.duplicateField field.name .origin)
      else if s.value.text ∈ field.words then none
      else
        some (.unknownWord field.name s.value.text field.words (s.valuePlace before.length)) := by
  rw [fault?, named, field.lookup_name]

theorem fault?_of_unknown (unknown : settingWords.lookup s.key.text = none) :
    s.fault? before = some (.unknownField s.key.text (keyPlace before.length)) := by
  rw [fault?, unknown]

theorem fault?_eq_none_iff :
    s.fault? before = none ↔
      ∃ field : PolicyField, s.key.text = field.name ∧ field.name ∉ before.map (·.key.text) ∧
        s.value.text ∈ field.words := by
  rcases PolicyField.ofName?_cases s.key.text with ⟨field, named⟩ | ⟨unnamed, unknown⟩
  · rw [fault?_of_name named]
    constructor
    · intro clean
      by_cases repeated : field.name ∈ before.map (·.key.text)
      · rw [if_pos repeated] at clean
        cases clean
      · rw [if_neg repeated] at clean
        by_cases listed : s.value.text ∈ field.words
        · exact ⟨field, named, repeated, listed⟩
        · rw [if_neg listed] at clean
          cases clean
    · rintro ⟨other, named', fresh, listed⟩
      cases PolicyField.name_injective (named.symm.trans named')
      rw [if_neg fresh, if_pos listed]
  · rw [fault?_of_unknown unknown]
    constructor
    · intro clean
      cases clean
    · rintro ⟨field, named, _⟩
      rw [named, field.ofName?_name] at unnamed
      cases unnamed

end Yaml.Setting

namespace PolicyDocument

variable {before : List Setting} {made : Choices} {s : Setting}

theorem isMade_iff (reflects : made.Reflects before) (field : PolicyField) :
    field.isMade made = true ↔ field.name ∈ before.map (·.key.text) := by
  rw [field.isMade_eq, reflects field, lookup_pair_isSome]

theorem field_of_fresh (document : Yaml.Document) (reflects : made.Reflects before)
    {field : PolicyField} (fresh : field.name ∉ before.map (·.key.text)) (place : Yaml.Place) :
    PolicyDocument.field document made ⟨field.name, place⟩ = .ok field := by
  have unmade : field.isMade made = false := by
    rw [← Bool.not_eq_true, isMade_iff reflects]
    exact fresh
  simp [PolicyDocument.field, field.ofName?_name, unmade]

theorem choices_of_field {document : Yaml.Document} {key : Yaml.Part} {field : PolicyField}
    (known : PolicyDocument.field document made key = .ok field) (value : Yaml.Part)
    (rest : List Yaml.Part) :
    choices document made (key :: value :: rest) =
      (set field value made).bind fun made => choices document made rest := by
  rw [choices, known]
  rfl

theorem choices_of_field_error {document : Yaml.Document} {key : Yaml.Part} {fault : DocumentFault}
    (refused : PolicyDocument.field document made key = .error fault) (value : Yaml.Part)
    (rest : List Yaml.Part) : choices document made (key :: value :: rest) = .error fault := by
  rw [choices, refused]
  rfl

theorem choices_of_clean (document : Yaml.Document) (reflects : made.Reflects before)
    (clean : s.fault? before = none) (place place' : Yaml.Place) (rest : List Yaml.Part) :
    ∃ next : Choices, next.Reflects (before ++ [s]) ∧
      choices document made (⟨s.key.text, place⟩ :: ⟨s.value.text, place'⟩ :: rest) =
        choices document next rest := by
  obtain ⟨field, named, fresh, listed⟩ := Setting.fault?_eq_none_iff.1 clean
  obtain ⟨next, chosen, here, others⟩ := field.choose?_of_mem listed made
  refine ⟨next, fun other => ?_, ?_⟩
  · rw [List.map_append, List.lookup_append]
    by_cases same : other = field
    · subst same
      have absent : (before.map Setting.pair).lookup other.name = none := by
        rw [← Option.not_isSome_iff_eq_none, lookup_pair_isSome]
        exact fresh
      simp [here, absent, Setting.pair, named]
    · have differs : (other.name == s.key.text) = false := by
        rw [named, beq_eq_false_iff_ne]
        exact fun equal => same (PolicyField.name_injective equal)
      simp [others other same, reflects other, Setting.pair, List.lookup_cons, differs]
  · rw [named, choices_of_field (field_of_fresh document reflects fresh place), set, chosen]
    rfl

theorem choices_of_fault {document : Yaml.Document} (origin : document.place = .origin)
    (reflects : made.Reflects before) {fault : DocumentFault}
    (found : s.fault? before = some fault) (rest : List Yaml.Part) :
    choices document made (⟨s.key.text, Setting.keyPlace before.length⟩ ::
      ⟨s.value.text, s.valuePlace before.length⟩ :: rest) = .error fault := by
  rcases PolicyField.ofName?_cases s.key.text with ⟨field, named⟩ | ⟨unnamed, unknown⟩
  · rw [Setting.fault?_of_name named] at found
    rw [named]
    by_cases repeated : field.name ∈ before.map (·.key.text)
    · rw [if_pos repeated] at found
      cases found
      have known := (isMade_iff reflects field).2 repeated
      refine choices_of_field_error ?_ _ _
      simp [PolicyDocument.field, field.ofName?_name, known, origin]
    · rw [if_neg repeated] at found
      by_cases listed : s.value.text ∈ field.words
      · rw [if_pos listed] at found
        cases found
      · rw [if_neg listed] at found
        cases found
        rw [choices_of_field (field_of_fresh document reflects repeated _), set,
          PolicyField.choose?_of_not_mem listed]
        rfl
  · rw [Setting.fault?_of_unknown unknown] at found
    cases found
    refine choices_of_field_error ?_ _ _
    simp [PolicyDocument.field, unnamed]

theorem choices_of_faultless (document : Yaml.Document) (reflects : made.Reflects before)
    {settings : List Setting} (faultless : Faultless before settings) (rest : List Yaml.Part) :
    ∃ next : Choices, next.Reflects (before ++ settings) ∧
      choices document made (Yaml.partsOf before.length settings ++ rest) =
        choices document next rest := by
  induction settings generalizing before made with
  | nil => exact ⟨made, by simpa using reflects, rfl⟩
  | cons s settings ih =>
    obtain ⟨clean, later⟩ := faultless
    obtain ⟨made', reflects', read⟩ := choices_of_clean document reflects clean
      (Setting.keyPlace before.length) (s.valuePlace before.length)
      (Yaml.partsOf (before.length + 1) settings ++ rest)
    obtain ⟨next, reflected, read'⟩ := ih reflects' later
    refine ⟨next, by simpa using reflected, ?_⟩
    rw [Yaml.partsOf, List.cons_append, List.cons_append, read]
    simpa using read'

end PolicyDocument

theorem Yaml.Setting.isShort_of_clean {before : List Setting} {s : Setting}
    (clean : s.fault? before = none) : s.isShort = true := by
  obtain ⟨field, named, _⟩ := fault?_eq_none_iff.1 clean
  have chars : s.key.chars = field.name.toList := by
    rw [← named, PlainWord.text, String.toList_ofList]
  have short : field.name.toList.length ≤ 1024 := by cases field <;> decide
  exact decide_eq_true (by rwa [PlainWord.length, chars])

theorem short_of_faultless {before settings : List Setting}
    (faultless : Faultless before settings) : ∀ s ∈ settings, s.isShort = true := by
  induction settings generalizing before with
  | nil => simp
  | cons s rest ih =>
    exact List.forall_mem_cons.2 ⟨Setting.isShort_of_clean faultless.1, ih faultless.2⟩

namespace PolicyDocument

variable {before settings after : List Setting} {s : Setting} {fault : DocumentFault}

/-- Pairs that are short enough are given out whole before one that offends, which is given out if
it is short itself. -/
theorem ofText?_of_faultless (ended : Bool) (faultless : Faultless [] before) :
    Yaml.Document.ofText? (Yaml.written ended (before ++ s :: after)) =
      if s.isShort then
        some ⟨.origin, Yaml.partsOf 0 (before ++ s :: after.takeWhile Setting.isShort),
          (s :: after).all Setting.isShort⟩
      else if before = [] then none
      else some ⟨.origin, Yaml.partsOf 0 before, false⟩ := by
  have shorts := short_of_faultless faultless
  have all : before.all Setting.isShort = true := List.all_eq_true.2 shorts
  have split : (before ++ s :: after).takeWhile Setting.isShort =
      before ++ if s.isShort then s :: after.takeWhile Setting.isShort else [] := by
    rw [List.takeWhile_append_of_pos shorts]
    cases short : s.isShort <;> simp [short]
  cases before with
  | nil =>
    rw [List.nil_append, Yaml.ofText?_written]
    cases short : s.isShort <;> simp [short]
  | cons first before =>
    rw [List.cons_append] at split ⊢
    rw [Yaml.ofText?_written, split, ← List.cons_append, List.all_append, all]
    cases short : s.isShort <;> simp [short, shorts first List.mem_cons_self]

theorem delivers_iff (ended : Bool) (faultless : Faultless [] before) :
    Delivers (String.ofList (Yaml.written ended (before ++ s :: after))) (before ++ [s]) ↔
      s.isShort = true := by
  unfold Delivers
  rw [String.toList_ofList, ofText?_of_faultless ended faultless]
  cases short : s.isShort with
  | true =>
    refine ⟨fun _ => rfl, fun _ => ⟨_, if_pos rfl, ?_⟩⟩
    refine ⟨Yaml.partsOf (0 + (before ++ [s]).length) (after.takeWhile Setting.isShort), ?_⟩
    rw [← Yaml.partsOf_append]
    simp
  | false =>
    refine ⟨?_, fun absurd => by cases absurd⟩
    rintro ⟨document, found, delivered⟩
    rw [if_neg Bool.false_ne_true] at found
    split at found
    · cases found
    · cases found
      have length := delivered.length_le
      rw [Yaml.length_partsOf, Yaml.length_partsOf, List.length_append, List.length_singleton]
        at length
      omega

theorem not_blank_written (ended : Bool) (before after : List Setting) (s : Setting) :
    (String.ofList (Yaml.written ended (before ++ s :: after))).toList.all isBlank = false := by
  obtain ⟨first, rest, split⟩ : ∃ first rest, before ++ s :: after = first :: rest :=
    List.exists_cons_of_ne_nil (by simp)
  rw [← Bool.not_eq_true, List.all_eq_true, String.toList_ofList, split]
  intro blank
  cases blank ':' (by simp [Yaml.written, Setting.line])

theorem choices_of_first_fault {document : Yaml.Document} (origin : document.place = .origin)
    (faultless : Faultless [] before) (found : s.fault? before = some fault)
    (rest : List Setting) :
    choices document .none (Yaml.partsOf 0 (before ++ s :: rest)) = .error fault := by
  obtain ⟨made, reflects, ran⟩ := choices_of_faultless document reflects_none faultless
    (Yaml.partsOf before.length (s :: rest))
  rw [Yaml.partsOf_append, Nat.zero_add]
  exact ran.trans (choices_of_fault origin reflects found _)

theorem choices_of_all (document : Yaml.Document) (faultless : Faultless [] settings) :
    ∃ made : Choices, made.Reflects settings ∧
      choices document .none (Yaml.partsOf 0 settings) =
        if document.complete then .ok made else .error .malformed := by
  obtain ⟨made, reflects, ran⟩ := choices_of_faultless document reflects_none faultless []
  rw [List.append_nil] at ran
  exact ⟨made, reflects, ran⟩

theorem read_of_fault (ended : Bool) (faultless : Faultless [] before)
    (found : s.fault? before = some fault) :
    read (String.ofList (Yaml.written ended (before ++ s :: after))) =
      .error (if s.isShort then fault else .malformed) := by
  rw [read, not_blank_written, if_neg Bool.false_ne_true, String.toList_ofList,
    ofText?_of_faultless ended faultless]
  cases short : s.isShort with
  | true =>
    simp only [if_true]
    rw [choices_of_first_fault rfl faultless found]
    rfl
  | false =>
    by_cases none : before = []
    · simp [none]
    · obtain ⟨made, _, ran⟩ := choices_of_all ⟨.origin, Yaml.partsOf 0 before, false⟩ faultless
      simp only [none, Bool.false_eq_true, if_false]
      rw [ran]
      rfl

theorem read_of_faultless (ended : Bool) (filled : settings ≠ [])
    (faultless : Faultless [] settings) :
    ∃ made : Choices, made.Reflects settings ∧
      read (String.ofList (Yaml.written ended settings)) = .ok made.policy := by
  obtain ⟨s, after, rfl⟩ := List.exists_cons_of_ne_nil filled
  have shorts := short_of_faultless faultless
  have given := Yaml.ofText?_written ended s after
  have blank := not_blank_written ended [] after s
  rw [if_pos (shorts s List.mem_cons_self), List.takeWhile_eq_self_iff.2 shorts,
    List.all_eq_true.2 shorts] at given
  rw [List.nil_append] at blank
  obtain ⟨made, reflects, ran⟩ := choices_of_all ⟨.origin, Yaml.partsOf 0 (s :: after), true⟩
    faultless
  refine ⟨made, reflects, ?_⟩
  rw [read, blank, if_neg Bool.false_ne_true, String.toList_ofList, given]
  simp only [ran]
  rfl

end PolicyDocument

theorem OrderedMap.get?_eq_of_perm {α : Type} {m n : OrderedMap α}
    (perm : m.entries.Perm n.entries) (name : String) : m.get? name = n.get? name := by
  have moved {m n : OrderedMap α} (perm : m.entries.Perm n.entries) {value : α}
      (found : m.get? name = some value) : n.get? name = some value := by
    obtain ⟨before, after, split, _⟩ := List.lookup_eq_some_iff.1 found
    exact get?_of_mem (perm.subset (by simp [split]))
  cases found : m.get? name with
  | some value => exact (moved perm found).symm
  | none =>
    cases other : n.get? name with
    | some value => exact found.symm.trans (moved perm.symm other)
    | none => rfl

theorem faultless_iff {settings : List Setting} :
    Faultless [] settings ↔ (settings.map (·.key.text)).Nodup ∧
      ∀ s ∈ settings, ∃ field : PolicyField, s.key.text = field.name ∧
        s.value.text ∈ field.words := by
  induction settings using List.reverseRecOn with
  | nil => simp [Faultless]
  | append_singleton settings s ih =>
    have last : Faultless settings [s] ↔ s.fault? settings = none := and_iff_left trivial
    rw [faultless_append, ih, List.nil_append, last, Setting.fault?_eq_none_iff, List.map_append,
      List.map_singleton, List.nodup_append_comm, List.singleton_append, List.nodup_cons,
      List.forall_mem_append, List.forall_mem_singleton]
    constructor
    · rintro ⟨⟨nodup, fits⟩, field, named, fresh, listed⟩
      exact ⟨⟨named ▸ fresh, nodup⟩, fits, field, named, listed⟩
    · rintro ⟨⟨fresh, nodup⟩, fits, field, named, listed⟩
      exact ⟨⟨nodup, fits⟩, field, named, named ▸ fresh, listed⟩

theorem faultless_of_perm {settings settings' : List Setting} (perm : settings'.Perm settings)
    (faultless : Faultless [] settings) : Faultless [] settings' := by
  obtain ⟨nodup, fits⟩ := faultless_iff.1 faultless
  exact faultless_iff.2
    ⟨(perm.map _).nodup_iff.2 nodup, fun s member => fits s (perm.subset member)⟩

theorem Choices.reflects_of_perm {settings settings' : List Setting} {made : Choices}
    (perm : settings'.Perm settings) (faultless : Faultless [] settings)
    (reflects : made.Reflects settings) : made.Reflects settings' := by
  have keys (settings : List Setting) :
      (settings.map Setting.pair).map Prod.fst = settings.map (·.key.text) := by
    rw [List.map_map]
    rfl
  have nodup := (faultless_iff.1 faultless).1
  have nodup' := (faultless_iff.1 (faultless_of_perm perm faultless)).1
  intro field
  rw [reflects field]
  exact (OrderedMap.get?_eq_of_perm (m := ⟨settings'.map Setting.pair, by rwa [keys]⟩)
    (n := ⟨settings.map Setting.pair, by rwa [keys]⟩) (perm.map _) field.name).symm

theorem Choices.eq_of_chosen? {made made' : Choices}
    (same : ∀ field : PolicyField, field.chosen? made = field.chosen? made') : made = made' := by
  have duplicate {a b : OnDuplicate} (words : a.word = b.word) : a = b := by
    cases a <;> cases b <;> first | rfl | exact absurd words (by decide)
  have comma {a b : OnTrailingComma} (words : a.word = b.word) : a = b := by
    cases a <;> cases b <;> first | rfl | exact absurd words (by decide)
  obtain ⟨_, _⟩ := made
  obtain ⟨_, _⟩ := made'
  cases Option.map_injective (fun _ _ => duplicate) (same .duplicates)
  cases Option.map_injective (fun _ _ => comma) (same .trailingComma)
  rfl

theorem Choices.word_duplicates (made : Choices) :
    made.policy.duplicates.word = (PolicyField.duplicates.chosen? made).getD "overwrite" := by
  obtain ⟨choice, _⟩ := made
  cases choice <;> rfl

theorem Choices.word_trailingComma (made : Choices) :
    made.policy.trailingComma.word = (PolicyField.trailingComma.chosen? made).getD "allow" := by
  obtain ⟨_, choice⟩ := made
  cases choice <;> rfl

/-- A document of plain words, one pair a line, is refused when and only when a pair offends behind
those before it, and the first such pair is reported. Otherwise the values that it gives are set, in
whatever order, and the others are the defaults. -/
theorem first_offence_is_reported (ended : Bool) {settings : List Setting}
    (filled : settings ≠ []) :
    let text := String.ofList (Yaml.written ended settings)
    let pairs := settings.map Setting.pair
    ((∃ fault, PolicyDocument.read text = .error fault) ↔
      ∃ before s after, settings = before ++ s :: after ∧ s.fault? before ≠ none) ∧
    (∀ before s after fault, settings = before ++ s :: after → Faultless [] before →
      s.fault? before = some fault →
        (Delivers text (before ++ [s]) → PolicyDocument.read text = .error fault) ∧
        (Delivers text (before ++ [s]) ↔ s.key.length ≤ 1024)) ∧
    (Faultless [] settings → ∃ policy, PolicyDocument.read text = .ok policy ∧
      policy.duplicates.word = (pairs.lookup "duplicate-messages").getD "overwrite" ∧
      policy.trailingComma.word = (pairs.lookup "trailing-comma").getD "allow" ∧
      ∀ (settings' : List Setting) (ended' : Bool), settings'.Perm settings →
        PolicyDocument.read (String.ofList (Yaml.written ended' settings')) = .ok policy) := by
  intro text pairs
  have refuses {before after : List Setting} {s : Setting} {fault : DocumentFault}
      (split : settings = before ++ s :: after) (clean : Faultless [] before)
      (found : s.fault? before = some fault) :
      PolicyDocument.read text = .error (if s.isShort then fault else .malformed) := by
    subst split
    exact PolicyDocument.read_of_fault ended clean found
  refine ⟨⟨?_, ?_⟩, fun before s after fault split clean found => ?_, fun faultless => ?_⟩
  · rintro ⟨fault, refused⟩
    by_contra! clean
    obtain ⟨made, _, accepted⟩ :=
      PolicyDocument.read_of_faultless ended filled (faultless_iff_forall.2 clean)
    cases refused.symm.trans accepted
  -- The pair that offends need not be the first that does.
  · rintro ⟨before, s, after, split, faulty⟩
    obtain ⟨clean, t, later, fault, split', faultless, found⟩ :=
      exists_first_fault fun faultless => faulty (faultless_iff_forall.1 faultless _ _ _ split)
    exact ⟨_, refuses split' faultless found⟩
  · have delivers : Delivers text (before ++ [s]) ↔ s.isShort = true := by
      subst split
      exact PolicyDocument.delivers_iff ended clean
    refine ⟨fun delivered => ?_, delivers.trans decide_eq_true_iff⟩
    rw [refuses split clean found, if_pos (delivers.1 delivered)]
  · obtain ⟨made, reflects, accepted⟩ :=
      PolicyDocument.read_of_faultless ended filled faultless
    refine ⟨made.policy, accepted, ?_, ?_, fun settings' ended' perm => ?_⟩
    · rw [made.word_duplicates, reflects]
      rfl
    · rw [made.word_trailingComma, reflects]
      rfl
    · have filled' : settings' ≠ [] := by
        rintro rfl
        exact filled perm.nil_eq.symm
      obtain ⟨made', reflects', accepted'⟩ :=
        PolicyDocument.read_of_faultless ended' filled' (faultless_of_perm perm faultless)
      have moved := Choices.reflects_of_perm perm faultless reflects
      have same : made' = made :=
        Choices.eq_of_chosen? fun field => (reflects' field).trans (moved field).symm
      rw [accepted', same]

/-- The second line is refused for its word, not the third for its key or the fourth for being
unknown, and two lines are read in either order. -/
theorem first_offence_is_reported_of_unknown_word :
    let duplicates : PlainWord :=
      ⟨'d', "uplicate-messages".toList, by decide, plain_of_all (by decide)⟩
    let comma : PlainWord := ⟨'t', "railing-comma".toList, by decide, plain_of_all (by decide)⟩
    let reject : PlainWord := ⟨'r', "eject".toList, by decide, plain_of_all (by decide)⟩
    let never : PlainWord := ⟨'n', "ever".toList, by decide, plain_of_all (by decide)⟩
    let faulty : List Setting :=
      [⟨duplicates, reject⟩, ⟨comma, never⟩, ⟨duplicates, never⟩, ⟨never, reject⟩]
    let sound : List Setting := [⟨duplicates, reject⟩, ⟨comma, reject⟩]
    faulty ≠ [] ∧ sound ≠ [] ∧
      PolicyDocument.read (String.ofList (Yaml.written true faulty)) =
        .error (.unknownWord "trailing-comma" "never" ["allow", "reject"] ⟨1, 16, 16⟩) ∧
      PolicyDocument.read "trailing-comma: reject\nduplicate-messages: reject" = .ok .strict := by
  intro duplicates comma reject never faulty sound
  have filled : faulty ≠ [] := List.cons_ne_nil _ _
  have filled' : sound ≠ [] := List.cons_ne_nil _ _
  have clean : Faultless [] [faulty[0]] := ⟨by decide +kernel, trivial⟩
  have refused := (first_offence_is_reported true filled).2.1 [faulty[0]] faulty[1]
    [faulty[2], faulty[3]] (.unknownWord "trailing-comma" "never" ["allow", "reject"] ⟨1, 16, 16⟩)
    rfl clean (by decide +kernel)
  obtain ⟨policy, accepted, first, second, reordered⟩ :=
    (first_offence_is_reported true filled').2.2 ⟨by decide +kernel, by decide +kernel, trivial⟩
  have words : policy.duplicates.word = "reject" ∧ policy.trailingComma.word = "reject" :=
    ⟨first.trans (by decide +kernel), second.trans (by decide +kernel)⟩
  have strict : policy = .strict := by
    rcases policy with ⟨_ | _, _ | _⟩
    · exact absurd words.1 (by decide)
    · exact absurd words.1 (by decide)
    · exact absurd words.2 (by decide)
    · rfl
  have swapped := reordered [⟨comma, reject⟩, ⟨duplicates, reject⟩] false (List.Perm.swap _ _ _)
  have text : String.ofList (Yaml.written false [⟨comma, reject⟩, ⟨duplicates, reject⟩]) =
      "trailing-comma: reject\nduplicate-messages: reject" := by decide +kernel
  rw [text, strict] at swapped
  exact ⟨filled, filled', refused.1 (refused.2.2 (by decide +kernel)), swapped⟩

end RpcSchema
