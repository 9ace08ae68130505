import RpcSchema.CharClass

/-! How a class is read off its specification. The specification is cut from the left: three
characters with a dash in the middle are one piece, a range, and any other character is a piece by
itself. Cutting never fails. A specification is refused for the first of its ranges that does not
increase, and otherwise its pieces are the items of the class. -/
namespace RpcSchema

namespace ClassItem

/-- Only a range can fail to increase. -/
def Increases : ClassItem → Prop
  | single _ => True
  | range low high => low < high

instance (item : ClassItem) : Decidable item.Increases := by
  cases item <;> unfold Increases <;> infer_instance

end ClassItem

namespace CharClass

/-- The pieces of a specification. Whether the bounds of a range increase is not asked. -/
def pieces : List Char → List ClassItem
  | low :: '-' :: high :: rest => .range low high :: pieces rest
  | char :: rest => .single char :: pieces rest
  | [] => []

/-- A dash and a character behind it. Any character before them is the lower bound of a range. -/
def GoesOn (text : List Char) : Prop := ∃ high rest, text = '-' :: high :: rest

/-- The items are written one after the other in the text, and none is a single character that
could have been the lower bound of a range. -/
structure Divides (items : List ClassItem) (text : List Char) : Prop where
  joined : items.flatMap ClassItem.shown = text
  greedy : ∀ before char after, items = before ++ .single char :: after →
    ¬ GoesOn (after.flatMap ClassItem.shown)

theorem pieces_single {rest : List Char} (ends : ¬ GoesOn rest) (char : Char) :
    pieces (char :: rest) = .single char :: pieces rest := by
  rw [pieces]
  intro high later same
  exact ends ⟨high, later, same⟩

theorem Divides.tail {item : ClassItem} {items : List ClassItem} {text : List Char}
    (divides : Divides (item :: items) text) : Divides items (items.flatMap ClassItem.shown) where
  joined := rfl
  greedy before char after same := divides.greedy (item :: before) char after (same ▸ rfl)

theorem divides_pieces (text : List Char) : Divides (pieces text) text := by
  fun_induction pieces text with
  | case1 low high rest ih =>
    refine ⟨congrArg (low :: '-' :: high :: ·) ih.joined, fun before char after same => ?_⟩
    cases before with
    | nil => cases same
    | cons first before =>
      injection same with _ same
      exact ih.greedy before char after same
  | case2 char rest noRange ih =>
    refine ⟨congrArg (char :: ·) ih.joined, fun before other after same => ?_⟩
    cases before with
    | nil =>
      cases same
      rw [ih.joined]
      rintro ⟨high, later, rfl⟩
      exact noRange high later rfl
    | cons first before =>
      injection same with _ same
      exact ih.greedy before other after same
  | case3 =>
    refine ⟨rfl, fun before char after same => ?_⟩
    cases before <;> cases same

theorem Divides.eq_pieces {items : List ClassItem} {text : List Char}
    (divides : Divides items text) : items = pieces text := by
  induction items generalizing text with
  | nil =>
    cases divides.joined
    rfl
  | cons item items ih =>
    have rest := ih divides.tail
    rw [← divides.joined]
    cases item with
    | single char =>
      have ends := divides.greedy [] char items rfl
      exact (congrArg (ClassItem.single char :: ·) rest).trans (pieces_single ends char).symm
    | range low high => exact congrArg (ClassItem.range low high :: ·) rest

theorem divides_iff (items : List ClassItem) (text : List Char) :
    Divides items text ↔ items = pieces text :=
  ⟨Divides.eq_pieces, fun same => same ▸ divides_pieces text⟩

theorem increase_or (items : List ClassItem) :
    (∀ item ∈ items, item.Increases) ∨ ∃ before low high after,
      items = before ++ .range low high :: after ∧ (∀ item ∈ before, item.Increases) ∧
        high ≤ low := by
  induction items with
  | nil => exact .inl fun _ member => absurd member List.not_mem_nil
  | cons item items ih =>
    by_cases here : item.Increases
    · rcases ih with all | ⟨before, low, high, after, rfl, increase, refused⟩
      · exact .inl (List.forall_mem_cons.2 ⟨here, all⟩)
      · exact .inr ⟨item :: before, low, high, after, rfl,
          List.forall_mem_cons.2 ⟨here, increase⟩, refused⟩
    · cases item with
      | single char => exact absurd trivial here
      | range low high => exact .inr ⟨[], low, high, items, rfl, by simp, Char.not_lt.1 here⟩

theorem readItems_of_increase (spec : String) {text : List Char}
    (increase : ∀ item ∈ pieces text, item.Increases) :
    readItems spec text = .ok (pieces text) := by
  fun_induction pieces text with
  | case1 low high rest ih =>
    have ⟨here, later⟩ := List.forall_mem_cons.1 increase
    have increases : low < high := here
    simp only [readItems, increases, if_true, ih later]
  | case2 char rest noRange ih =>
    have ⟨_, later⟩ := List.forall_mem_cons.1 increase
    rw [readItems]
    · rw [ih later]
    · exact noRange
  | case3 => rfl

theorem readItems_of_refused (spec : String) {text : List Char} {before after : List ClassItem}
    {low high : Char} (cut : pieces text = before ++ .range low high :: after)
    (increase : ∀ item ∈ before, item.Increases) (refused : high ≤ low) :
    readItems spec text = .error ⟨spec, low, high⟩ := by
  fun_induction pieces text generalizing before with
  | case1 first last rest ih =>
    cases before with
    | nil =>
      cases cut
      simp only [readItems, Char.not_lt.2 refused, if_false]
    | cons item before =>
      injection cut with same cut
      have ⟨here, later⟩ := List.forall_mem_cons.1 increase
      have increases : first < last := by rwa [← same] at here
      simp only [readItems, increases, if_true, ih cut later]
  | case2 char rest noRange ih =>
    cases before with
    | nil => cases cut
    | cons item before =>
      injection cut with same cut
      have ⟨_, later⟩ := List.forall_mem_cons.1 increase
      rw [readItems]
      · rw [ih cut later]
      · exact noRange
  | case3 => cases before <;> cases cut

section

variable {spec : String}

theorem compile_of_increase (increase : ∀ item ∈ pieces spec.toList, item.Increases) :
    compile spec = .ok ⟨spec, pieces spec.toList⟩ := by
  rw [compile, readItems_of_increase spec increase]

theorem compile_of_refused {before after : List ClassItem} {low high : Char}
    (cut : pieces spec.toList = before ++ .range low high :: after)
    (increase : ∀ item ∈ before, item.Increases) (refused : high ≤ low) :
    compile spec = .error ⟨spec, low, high⟩ := by
  rw [compile, readItems_of_refused spec cut increase refused]

end

theorem compile_eq_error_iff (spec : String) (bad : BadRange) :
    compile spec = .error bad ↔ ∃ before low high after,
      pieces spec.toList = before ++ .range low high :: after ∧
        (∀ item ∈ before, item.Increases) ∧ high ≤ low ∧ bad = ⟨spec, low, high⟩ := by
  constructor
  · intro failed
    rcases increase_or (pieces spec.toList) with all | ⟨before, low, high, after, cut, increase,
      refused⟩
    · cases failed.symm.trans (compile_of_increase all)
    · cases failed.symm.trans (compile_of_refused cut increase refused)
      exact ⟨before, low, high, after, cut, increase, refused, rfl⟩
  · rintro ⟨before, low, high, after, cut, increase, refused, rfl⟩
    exact compile_of_refused cut increase refused

theorem compile_eq_ok_iff (spec : String) (set : CharClass) :
    compile spec = .ok set ↔
      set.spec = spec ∧ Divides set.items spec.toList ∧ ∀ item ∈ set.items, item.Increases := by
  constructor
  · intro compiled
    rcases increase_or (pieces spec.toList) with all | ⟨before, low, high, after, cut, increase,
      refused⟩
    · cases compiled.symm.trans (compile_of_increase all)
      exact ⟨rfl, divides_pieces _, all⟩
    · cases compiled.symm.trans (compile_of_refused cut increase refused)
  · rintro ⟨rfl, divides, increase⟩
    rw [divides_iff] at divides
    rw [divides] at increase
    rw [compile_of_increase increase, ← divides]

theorem exists_refused_iff (spec : String) :
    (∃ bad, compile spec = .error bad) ↔
      ∃ low high, ClassItem.range low high ∈ pieces spec.toList ∧ high ≤ low := by
  simp only [compile_eq_error_iff]
  constructor
  · rintro ⟨_, before, low, high, after, cut, _, refused, _⟩
    exact ⟨low, high, by simp [cut], refused⟩
  · rintro ⟨low, high, member, refused⟩
    rcases increase_or (pieces spec.toList) with all | ⟨before, low, high, after, cut, increase,
      refused⟩
    · exact absurd (all _ member) (Char.not_lt.2 refused)
    · exact ⟨_, before, low, high, after, cut, increase, refused, rfl⟩

theorem covers_iff_item (set : CharClass) (c : Char) :
    set.covers c = true ↔
      .single c ∈ set.items ∨ ∃ low high, .range low high ∈ set.items ∧ low ≤ c ∧ c ≤ high := by
  rw [covers_iff]
  constructor
  · rintro ⟨item, member, covers⟩
    cases item with
    | single char =>
      rw [(ClassItem.covers_single char c).1 covers]
      exact .inl member
    | range low high => exact .inr ⟨low, high, member, (ClassItem.covers_range low high c).1 covers⟩
  · rintro (member | ⟨low, high, member, inside⟩)
    · exact ⟨_, member, (ClassItem.covers_single c c).2 rfl⟩
    · exact ⟨_, member, (ClassItem.covers_range low high c).2 inside⟩

/-- A specification is cut into pieces in one way, and refused for the first one that does not
increase. Otherwise its class has these pieces for items, and covers its single characters and what
lies between the bounds of its ranges. -/
theorem class_of_specification (spec : String) :
    (∀ items, Divides items spec.toList ↔ items = pieces spec.toList) ∧
    ((∃ bad, compile spec = .error bad) ↔
      ∃ low high, ClassItem.range low high ∈ pieces spec.toList ∧ high ≤ low) ∧
    (∀ bad, compile spec = .error bad ↔ ∃ before low high after,
      pieces spec.toList = before ++ .range low high :: after ∧
        (∀ item ∈ before, item.Increases) ∧ high ≤ low ∧ bad = ⟨spec, low, high⟩) ∧
    (∀ set, compile spec = .ok set ↔
      set.spec = spec ∧ Divides set.items spec.toList ∧ ∀ item ∈ set.items, item.Increases) ∧
    ∀ (set : CharClass) (c : Char), set.covers c = true ↔
      .single c ∈ set.items ∨ ∃ low high, .range low high ∈ set.items ∧ low ≤ c ∧ c ≤ high :=
  ⟨fun items => divides_iff items spec.toList, exists_refused_iff spec, compile_eq_error_iff spec,
    compile_eq_ok_iff spec, covers_iff_item⟩

/-- A dash ends a range, stands behind one, and ends the specification. -/
example : pieces "+--a-c-e-".toList =
    [.range '+' '-', .range 'a' 'c', .single '-', .single 'e', .single '-'] := by decide

end CharClass

end RpcSchema
