import RpcSchema.Proofs.Text

/-! The normal form of a layout. Of a gap it keeps one space at most, and none unless a blank stands
outside the comments of the gap. The same tokens are written in it, and two tokens of name
characters stay apart. -/
namespace RpcSchema

theorem dropComments_comment {text : List Char} (oneLine : '\n' ∉ text) (rest : List Char) :
    dropComments true (text ++ '\n' :: rest) = dropComments false rest := by
  induction text with
  | nil => rfl
  | cons c text ih =>
    have inside : (c != '\n') = true :=
      bne_iff_ne.2 fun same => oneLine (same ▸ List.mem_cons_self)
    have later : '\n' ∉ text := fun member => oneLine (List.mem_cons_of_mem c member)
    simpa only [List.cons_append, dropComments, inside, if_true] using ih later

theorem dropComments_plain {text : List Char} (plain : ∀ c ∈ text, c ≠ '#') (rest : List Char) :
    dropComments false (text ++ rest) = text ++ dropComments false rest := by
  induction text with
  | nil => rfl
  | cons c text ih =>
    have ⟨here, later⟩ := List.forall_mem_cons.1 plain
    simp [dropComments, here, ih later]

theorem tighten_blanks {blanks : List Char} (all : ∀ c ∈ blanks, isBlank c = true) (owed : Bool)
    (rest : List Char) :
    tighten owed (blanks ++ rest) = tighten (owed || !blanks.isEmpty) rest := by
  induction blanks generalizing owed with
  | nil => simp
  | cons c blanks ih =>
    have ⟨here, later⟩ := List.forall_mem_cons.1 all
    simp [tighten, here, ih later]

theorem tighten_solid {text : List Char} (solid : ∀ c ∈ text, isBlank c = false)
    (rest : List Char) : tighten false (text ++ rest) = text ++ tighten false rest := by
  induction text with
  | nil => rfl
  | cons c text ih =>
    have ⟨here, later⟩ := List.forall_mem_cons.1 solid
    simp [tighten, here, ih later]

theorem tighten_owed {c : Char} (solid : isBlank c = false) (rest : List Char) :
    tighten true (c :: rest) = ' ' :: tighten false (c :: rest) := by
  simp [tighten, solid]

/-- The characters of a gap outside its comments. -/
def Gap.blanks (gap : Gap) : List Char :=
  gap.flatMap fun filler => match filler with
    | .blank c _ => [c]
    | .comment _ _ => []

theorem Gap.isBlank_of_mem_blanks {gap : Gap} {c : Char} (member : c ∈ gap.blanks) :
    isBlank c = true := by
  obtain ⟨filler, _, inside⟩ := List.mem_flatMap.1 member
  cases filler with
  | blank d blank =>
    rw [List.mem_singleton] at inside
    exact inside ▸ blank
  | comment text oneLine => cases inside

theorem Gap.isEmpty_blanks (gap : Gap) : gap.blanks.isEmpty = !gap.isOpen := by
  induction gap with
  | nil => rfl
  | cons filler gap ih =>
    cases filler with
    | blank c blank => rfl
    | comment text oneLine => exact ih

theorem dropComments_gap (gap : Gap) (rest : List Char) :
    dropComments false (gap.chars ++ rest) = gap.blanks ++ dropComments false rest := by
  induction gap with
  | nil => rfl
  | cons filler gap ih =>
    have chars : Gap.chars (filler :: gap) ++ rest = filler.chars ++ (Gap.chars gap ++ rest) := by
      simp [Gap.chars]
    rw [chars]
    cases filler with
    | blank c blank =>
      have other : c ≠ '#' := by
        rintro rfl
        cases isBlank_hash.symm.trans blank
      simpa [Filler.chars, dropComments, other, Gap.blanks] using ih
    | comment text oneLine =>
      have shut := dropComments_comment oneLine (Gap.chars gap ++ rest)
      simpa [Filler.chars, dropComments, shut, Gap.blanks] using ih

theorem dropComments_token (t : Token) (rest : List Char) :
    dropComments false (t.chars ++ rest) = t.chars ++ dropComments false rest :=
  dropComments_plain (fun c member => (t.plain c member).2) rest

theorem tighten_token (t : Token) (rest : List Char) :
    tighten false (t.chars ++ rest) = t.chars ++ tighten false rest :=
  tighten_solid (fun c member => (t.plain c member).1) rest

theorem tighten_gap (gap : Gap) (rest : List Char) :
    tighten false (gap.blanks ++ rest) = tighten gap.isOpen rest := by
  rw [tighten_blanks (fun c => Gap.isBlank_of_mem_blanks), Gap.isEmpty_blanks, Bool.not_not,
    Bool.false_or]

theorem LaidOut.begins {t : Token} {rest : List Token} {text : List Char}
    (laid : LaidOut (t :: rest) text) :
    ∃ c more, isBlank c = false ∧ dropComments false text = c :: more := by
  have begins : ∃ more, text = t.chars ++ more := by
    cases laid with
    | last => exact ⟨_, rfl⟩
    | cons => exact ⟨_, List.append_assoc _ _ _⟩
  obtain ⟨more, rfl⟩ := begins
  cases chars : t.chars with
  | nil => exact absurd chars t.chars_ne_nil
  | cons c later =>
    refine ⟨c, later ++ dropComments false more, (t.plain c (by simp [chars])).1, ?_⟩
    rw [← chars, dropComments_token, chars]
    rfl

theorem endsName_sign (t : Sign) (rest : List Char) : EndsName ((Token.sign t).chars ++ rest) := by
  cases t <;> exact (endsName_cons _ _).2 rfl

theorem written_of_laidOut {ts : List Token} {text : List Char} (laid : LaidOut ts text) :
    Written Token.isName ts (tighten false (dropComments false text)) := by
  induction laid with
  | nil => exact .nil
  | last t gap =>
    have nothing : tighten gap.isOpen [] = [] := rfl
    have left := dropComments_gap gap []
    rw [List.append_nil] at left
    rw [dropComments_token, left, tighten_token, tighten_gap]
    simpa [dropComments, nothing] using Written.last t
  | @cons t u rest gap text apart laid ih =>
    rw [List.append_assoc, dropComments_token, dropComments_gap, tighten_token, tighten_gap]
    cases shut : gap.isOpen with
    | false =>
      refine .joined t u (fun name => ?_) ih
      obtain ⟨more, starts⟩ := ih.begins
      rw [starts]
      cases u with
      | sign sign => exact endsName_sign sign more
      | keyword keyword => simp [apart name rfl] at shut
      | word word => simp [apart name rfl] at shut
    | true =>
      obtain ⟨c, more, solid, starts⟩ := laid.begins
      rw [starts, tighten_owed solid, ← starts]
      exact .spaced t u ih

theorem normalForm_of_begins (lead : Gap) {text more : List Char} {c : Char}
    (solid : isBlank c = false) (starts : dropComments false text = c :: more) :
    normalForm (lead.chars ++ text) = tighten false (dropComments false text) := by
  have clear : (dropComments false text).dropWhile isBlank = dropComments false text := by
    simp [starts, solid]
  rw [normalForm, collapse, dropComments_gap,
    List.dropWhile_append_of_pos fun c => Gap.isBlank_of_mem_blanks, clear]

theorem normalForm_gap (lead : Gap) : normalForm lead.chars = [] := by
  have blanks := dropComments_gap lead []
  rw [List.append_nil] at blanks
  rw [normalForm, collapse, blanks,
    List.dropWhile_append_of_pos fun c => Gap.isBlank_of_mem_blanks]
  rfl

theorem written_of_lead (lead : Gap) {ts : List Token} {text : List Char}
    (laid : LaidOut ts text) : Written Token.isName ts (normalForm (lead.chars ++ text)) := by
  cases ts with
  | nil =>
    cases laid
    rw [List.append_nil, normalForm_gap]
    exact .nil
  | cons t rest =>
    obtain ⟨c, more, solid, starts⟩ := laid.begins
    rw [normalForm_of_begins lead solid starts]
    exact written_of_laidOut laid

theorem written_normalForm {script : List Phrase} {source : List Char}
    (layout : IsLayout script source) :
    Written Token.isName (scriptTokens script) (normalForm source) := by
  obtain ⟨lead, text, laid, rfl⟩ := layout
  exact written_of_lead lead laid

theorem dropComments_laidOut {ts : List Token} {text : List Char} (laid : LaidOut ts text)
    (rest : List Char) :
    dropComments false (text ++ rest) = dropComments false text ++ dropComments false rest := by
  induction laid with
  | nil => rfl
  | last t gap =>
    have left := dropComments_gap gap []
    rw [List.append_nil] at left
    rw [List.append_assoc, dropComments_token, dropComments_gap, dropComments_token, left]
    simp [dropComments]
  | cons t u gap apart laid ih =>
    simp only [List.append_assoc, dropComments_token, dropComments_gap, ih]

theorem tighten_append (owed : Bool) (text rest : List Char) :
    ∃ later, tighten owed (text ++ rest) = tighten owed text ++ tighten later rest := by
  induction text generalizing owed with
  | nil => exact ⟨owed, rfl⟩
  | cons c text ih =>
    by_cases blank : isBlank c = true
    · obtain ⟨later, split⟩ := ih true
      exact ⟨later, by simp [tighten, blank, split]⟩
    · obtain ⟨later, split⟩ := ih false
      refine ⟨later, ?_⟩
      cases owed <;> simp [tighten, blank, split]

theorem normalForm_append (lead : Gap) {t : Token} {ts : List Token} {text : List Char}
    (laid : LaidOut (t :: ts) text) (rest : List Char) :
    normalForm (lead.chars ++ text) <+: normalForm (lead.chars ++ text ++ rest) := by
  obtain ⟨c, more, solid, starts⟩ := laid.begins
  have split := dropComments_laidOut laid rest
  have starts' : dropComments false (text ++ rest) = c :: (more ++ dropComments false rest) := by
    rw [split, starts]
    rfl
  rw [List.append_assoc, normalForm_of_begins lead solid starts,
    normalForm_of_begins lead solid starts', split]
  obtain ⟨later, same⟩ := tighten_append false (dropComments false text) (dropComments false rest)
  exact ⟨_, same.symm⟩

end RpcSchema
