import RpcSchema.Command
import RpcSchema.Proofs.Uncommented

/-! Which texts are normal forms. They are the texts without comments in which every blank is a
single space between two other characters. Bringing such a text to its normal form changes nothing,
so a normal form is read as its source is, and positions mean the same in both. -/
namespace RpcSchema

/-- The text has neither comments nor blanks other than spaces, and its spaces stand alone and
inside it. -/
structure InNormalForm (text : List Char) : Prop where
  no_comment : '#' ∉ text
  only_spaces : ∀ c ∈ text, isBlank c = true → c = ' '
  no_double : ∀ i, text[i]? = some ' ' → text[i + 1]? ≠ some ' '
  no_first : text.head? ≠ some ' '
  no_last : text.getLast? ≠ some ' '

theorem InNormalForm.tightText {text : List Char} (form : InNormalForm text) : TightText text where
  first := by
    rw [← List.head?_eq_getElem?]
    exact form.no_first
  next i space := by
    have inside := (List.getElem?_eq_some_iff.1 space).1
    have last := form.no_last
    rw [List.getLast?_eq_getElem?] at last
    have more : i + 1 < text.length := by
      refine Nat.lt_of_le_of_ne inside fun ends => last ?_
      rw [← ends, Nat.add_sub_cancel, space]
    have solid := form.no_double i space
    rw [List.getElem?_eq_getElem more] at solid ⊢
    exact ⟨_, rfl, fun same => solid (congrArg some same)⟩

theorem TightText.inNormalForm {text : List Char} (tight : TightText text) (plain : '#' ∉ text)
    (spaces : ∀ c ∈ text, isBlank c = true → c = ' ') : InNormalForm text where
  no_comment := plain
  only_spaces := spaces
  no_double i space := by
    obtain ⟨c, next, solid⟩ := tight.next i space
    rw [next]
    exact fun same => solid (Option.some.inj same)
  no_first := by
    rw [List.head?_eq_getElem?]
    exact tight.first
  no_last last := by
    rw [List.getLast?_eq_getElem?] at last
    obtain ⟨c, next, _⟩ := tight.next _ last
    have inside := (List.getElem?_eq_some_iff.1 next).1
    omega

theorem hash_not_mem_dropComments (inside : Bool) (text : List Char) :
    '#' ∉ dropComments inside text := by
  induction text generalizing inside with
  | nil => exact List.not_mem_nil
  | cons c rest ih =>
    rw [dropComments]
    split
    · exact ih _
    · split
      · exact ih _
      · next other =>
        rw [List.mem_cons, not_or]
        exact ⟨Ne.symm other, ih _⟩

theorem mem_tighten {c : Char} {owed : Bool} {text : List Char} (member : c ∈ tighten owed text) :
    c = ' ' ∨ c ∈ text ∧ isBlank c = false := by
  induction text generalizing owed with
  | nil => cases member
  | cons d rest ih =>
    have later {owed : Bool} (member : c ∈ tighten owed rest) :
        c = ' ' ∨ c ∈ d :: rest ∧ isBlank c = false :=
      (ih member).imp id fun known => ⟨List.mem_cons_of_mem d known.1, known.2⟩
    cases blank : isBlank d with
    | true =>
      simp only [tighten, blank, if_true] at member
      exact later member
    | false =>
      rw [tighten_of_solid blank, List.mem_append, List.mem_cons] at member
      rcases member with lead | rfl | member
      · cases owed with
        | false => cases lead
        | true => exact .inl (List.mem_singleton.1 lead)
      · exact .inr ⟨List.mem_cons_self, blank⟩
      · exact later member

theorem mem_collapse {c : Char} {text : List Char} (member : c ∈ collapse text) :
    c = ' ' ∨ c ∈ text ∧ isBlank c = false :=
  (mem_tighten member).imp id fun known => ⟨(List.dropWhile_sublist _).mem known.1, known.2⟩

theorem inNormalForm_normalForm (text : List Char) : InNormalForm (normalForm text) := by
  refine (tightText_normalForm text).inNormalForm (fun hash => ?_) fun c member blank => ?_
  · rcases mem_collapse hash with space | ⟨kept, _⟩
    · cases space
    · exact hash_not_mem_dropComments false text kept
  · rcases mem_collapse member with space | ⟨_, solid⟩
    · exact space
    · cases solid.symm.trans blank

theorem tighten_of_spaced {text : List Char} (spaces : ∀ c ∈ text, isBlank c = true → c = ' ')
    (next : ∀ i, text[i]? = some ' ' → ∃ c, text[i + 1]? = some c ∧ c ≠ ' ') :
    tighten false text = text := by
  induction text with
  | nil => rfl
  | cons c rest ih =>
    have ⟨here, later⟩ := List.forall_mem_cons.1 spaces
    have same := ih later fun i => next (i + 1)
    cases blank : isBlank c with
    | false => exact (tighten_of_solid blank false rest).trans (congrArg (c :: ·) same)
    | true =>
      have space := here blank
      obtain ⟨d, behind, other⟩ := next 0 (congrArg some space)
      cases rest with
      | nil => cases behind
      | cons e rest =>
        have solid : isBlank e = false := by
          cases Option.some.inj behind
          exact Bool.eq_false_iff.2 fun blank => other (later _ List.mem_cons_self blank)
        rw [tighten, if_pos blank, tighten_owed solid, same, space]

theorem collapse_append_newline (text : List Char) : collapse (text ++ ['\n']) = collapse text := by
  obtain ⟨later, split⟩ := tighten_append false text ['\n']
  have ended : tighten later ['\n'] = [] := by simp [tighten, isBlank_newline]
  rw [collapse_eq_dropWhile false, split, ended, List.append_nil, ← collapse_eq_dropWhile]

namespace InNormalForm

variable {text : List Char}

theorem dropComments_append (form : InNormalForm text) (rest : List Char) :
    dropComments false (text ++ rest) = text ++ dropComments false rest :=
  dropComments_plain (fun _ member hash => form.no_comment (hash ▸ member)) rest

theorem dropComments_eq (form : InNormalForm text) : dropComments false text = text := by
  have plain := form.dropComments_append []
  rwa [dropComments, List.append_nil] at plain

theorem normalForm_eq (form : InNormalForm text) : normalForm text = text := by
  have tight := form.tightText
  rw [normalForm, form.dropComments_eq, collapse_eq_dropWhile false,
    tighten_of_spaced form.only_spaces tight.next]
  cases text with
  | nil => rfl
  | cons c rest =>
    have other : c ≠ ' ' := fun space => tight.first (congrArg some space)
    simp [other]

theorem normalForm_append_newline (form : InNormalForm text) :
    normalForm (text ++ ['\n']) = text := by
  calc normalForm (text ++ ['\n']) = collapse (text ++ ['\n']) :=
        congrArg collapse (form.dropComments_append ['\n'])
    _ = collapse text := collapse_append_newline text
    _ = normalForm text := congrArg collapse form.dropComments_eq.symm
    _ = text := form.normalForm_eq

end InNormalForm

namespace Buffer

theorem toList_text_ofSource (source : String) :
    (ofSource source).text.toList = normalForm source.toList := by
  rw [text, String.toList_ofList, ofSource_chars]

theorem ofSource_eq {source other : String}
    (same : normalForm source.toList = normalForm other.toList) :
    ofSource source = ofSource other := by
  rw [ofSource, ofSource, same]

theorem text_ofSource_eq_iff (source : String) :
    (ofSource source).text = source ↔ InNormalForm source.toList := by
  rw [← String.toList_inj, toList_text_ofSource]
  exact ⟨fun same => same ▸ inNormalForm_normalForm _, InNormalForm.normalForm_eq⟩

theorem ofSource_text_append_newline (source : String) :
    ofSource ((ofSource source).text ++ "\n") = ofSource source := by
  refine ofSource_eq ?_
  rw [String.toList_append, toList_text_ofSource]
  exact (inNormalForm_normalForm _).normalForm_append_newline

end Buffer

/-- The texts that are their own normal form are those without comments and without blanks other
than single spaces inside. What the command that shows normal forms writes is read as its source is,
at the same positions. -/
theorem normal_forms_are_kept (source : String) :
    ((Buffer.ofSource source).text = source ↔ InNormalForm source.toList) ∧
    InNormalForm (Buffer.ofSource source).text.toList ∧
    Buffer.ofSource (Buffer.ofSource source).text = Buffer.ofSource source ∧
    ∀ (load : String → Option String) (coloured : Bool) (path : String),
      load path = some source →
      ∃ written, Id.run (Command.run (fun path => pure (load path)) coloured (.normalize path)) =
          ⟨.ok written, []⟩ ∧
        (∀ policy, readSource policy written = readSource policy source) ∧
        ∀ (reader : SchemaReader) (name : String), reader.read written = reader.read source ∧
          reader.readNamed name written = reader.readNamed name source := by
  have form : InNormalForm (Buffer.ofSource source).text.toList := by
    rw [Buffer.toList_text_ofSource]
    exact inNormalForm_normalForm _
  refine ⟨Buffer.text_ofSource_eq_iff source, form, ?_, fun load coloured path found => ?_⟩
  · exact Buffer.ofSource_eq (form.normalForm_eq.trans (Buffer.toList_text_ofSource source))
  · have same := Buffer.ofSource_text_append_newline source
    have reads (policy : Policy) :
        readSource policy ((Buffer.ofSource source).text ++ "\n") = readSource policy source := by
      simp only [readSource, same]
    have readsAll (reader : SchemaReader) :
        reader.read ((Buffer.ofSource source).text ++ "\n") = reader.read source := by
      simp only [SchemaReader.read, reads]
    refine ⟨(Buffer.ofSource source).text ++ "\n", ?_, reads, fun reader name => ?_⟩
    · simp only [Command.run, found, pure_bind]
      rfl
    · exact ⟨readsAll reader, by simp only [SchemaReader.readNamed, readsAll, same]⟩

/-- A source with a comment, a tab and a line break in front of what is refused. -/
theorem normal_forms_are_kept_of_refused_source :
    let source := "a #\n b\t\n (c: d)"
    let load := fun path => if path = "source" then some source else none
    load "source" = some source ∧
      ∃ written, Id.run (Command.run (fun path => pure (load path)) false (.normalize "source")) =
          ⟨.ok written, []⟩ ∧
        readSource .strict written = readSource .strict source ∧
        (readSource .strict source).1.isOk = false := by
  intro source load
  have found : load "source" = some source := rfl
  obtain ⟨_, _, _, kept⟩ := normal_forms_are_kept source
  obtain ⟨written, writes, reads, _⟩ := kept load false "source" found
  exact ⟨found, written, writes, reads .strict, by decide +kernel⟩

end RpcSchema
