import RpcSchema.Proofs.Layout

/-! What the normal form keeps of a text. A character is commented when a `#` stands on its line and
not behind it, and a line ends with its newline. The characters that are neither commented nor blank
are kept in order, and between two of them in a row a space is kept when an uncommented blank
stands there. The text is followed position by position, each time with what is left from there. -/
namespace RpcSchema

/-- A `#` stands in front of the position, and no newline since then. -/
def CommentReaches (text : List Char) (n : Nat) : Prop :=
  ∃ j < n, text[j]? = some '#' ∧ ∀ k < n, j ≤ k → text[k]? ≠ some '\n'

/-- A `#` stands at the position or before it on its line. -/
def Commented (text : List Char) (i : Nat) : Prop :=
  ∃ j < i + 1, text[j]? = some '#' ∧ ∀ k < i, j ≤ k → text[k]? ≠ some '\n'

instance (text : List Char) (n : Nat) : Decidable (CommentReaches text n) := by
  unfold CommentReaches
  infer_instance

instance (text : List Char) (i : Nat) : Decidable (Commented text i) := by
  unfold Commented
  infer_instance

/-- A character of the kind stands at the position, outside comments. -/
def Bare (kind : Char → Bool) (text : List Char) (i : Nat) : Prop :=
  text[i]?.any kind = true ∧ ¬ Commented text i

instance (kind : Char → Bool) (text : List Char) (i : Nat) : Decidable (Bare kind text i) := by
  unfold Bare
  infer_instance

/-- An uncommented blank stands at `m` or behind it, and in front of `n`. -/
def Parted (text : List Char) (m n : Nat) : Prop :=
  ∃ k < n, m ≤ k ∧ Bare isBlank text k

instance (text : List Char) (m n : Nat) : Decidable (Parted text m n) := by
  unfold Parted
  infer_instance

/-- The positions of the characters that are neither commented nor blank, in order. -/
def codePlaces (text : List Char) : List Nat :=
  (List.range text.length).filter fun i => decide (Bare (!isBlank ·) text i)

/-- The characters at the positions, with a space between two of them that are parted. -/
def withSpaces (text : List Char) : List Nat → List Char
  | [] => []
  | [i] => text[i]?.toList
  | i :: j :: later =>
    text[i]?.toList ++ (if Parted text (i + 1) j then [' '] else []) ++ withSpaces text (j :: later)

variable {text : List Char} {n : Nat} {c : Char}

theorem not_commentReaches_zero (text : List Char) : ¬ CommentReaches text 0 := by
  rintro ⟨j, before, _⟩
  exact absurd before (Nat.not_lt_zero j)

theorem commented_iff : Commented text n ↔ CommentReaches text n ∨ text[n]? = some '#' := by
  constructor
  · rintro ⟨j, le, hash, line⟩
    rcases Nat.lt_or_eq_of_le (Nat.le_of_lt_succ le) with before | rfl
    · exact .inl ⟨j, before, hash, line⟩
    · exact .inr hash
  · rintro (⟨j, before, hash, line⟩ | hash)
    · exact ⟨j, Nat.lt_succ_of_lt before, hash, line⟩
    · exact ⟨n, Nat.lt_succ_self n, hash, fun k before le => absurd before (Nat.not_lt.2 le)⟩

theorem commentReaches_succ :
    CommentReaches text (n + 1) ↔ Commented text n ∧ text[n]? ≠ some '\n' := by
  constructor
  · rintro ⟨j, le, hash, line⟩
    refine ⟨⟨j, le, hash, fun k before => line k (Nat.lt_succ_of_lt before)⟩, ?_⟩
    exact line n (Nat.lt_succ_self n) (Nat.le_of_lt_succ le)
  · rintro ⟨⟨j, le, hash, line⟩, here⟩
    refine ⟨j, le, hash, fun k before after => ?_⟩
    rcases Nat.lt_or_eq_of_le (Nat.le_of_lt_succ before) with earlier | rfl
    · exact line k earlier after
    · exact here

def uncommented (text : List Char) (n : Nat) : List Char :=
  dropComments (decide (CommentReaches text n)) (text.drop n)

theorem uncommented_zero (text : List Char) : uncommented text 0 = dropComments false text := by
  simp [uncommented, not_commentReaches_zero]

theorem drop_of_getElem? (here : text[n]? = some c) : text.drop n = c :: text.drop (n + 1) := by
  obtain ⟨inside, rfl⟩ := List.getElem?_eq_some_iff.1 here
  exact List.drop_eq_getElem_cons inside

theorem uncommented_of_commented (here : text[n]? = some c) (commented : Commented text n) :
    uncommented text n = uncommented text (n + 1) := by
  have next : CommentReaches text (n + 1) ↔ c ≠ '\n' := by
    simp [commentReaches_succ, commented, here]
  simp only [uncommented, drop_of_getElem? here, dropComments, next]
  by_cases reaches : CommentReaches text n
  · have inside : (c != '\n') = decide (c ≠ '\n') := Bool.eq_iff_iff.2 (by simp)
    simp [reaches, inside]
  · -- The comment starts with this very character.
    have hash : c = '#' := by
      rcases commented_iff.1 commented with before | first
      · exact absurd before reaches
      · exact Option.some.inj (here.symm.trans first)
    simp [reaches, hash]

theorem uncommented_of_bare (here : text[n]? = some c) (bare : ¬ Commented text n) :
    uncommented text n = c :: uncommented text (n + 1) := by
  have next : ¬ CommentReaches text (n + 1) := fun reaches => bare (commentReaches_succ.1 reaches).1
  rw [commented_iff, not_or] at bare
  have other : c ≠ '#' := fun hash => bare.2 (hash ▸ here)
  simp [uncommented, drop_of_getElem? here, dropComments, next, bare.1, other]

def codeFrom (text : List Char) (n : Nat) : List Nat :=
  (List.range' n (text.length - n)).filter fun i => decide (Bare (!isBlank ·) text i)

theorem codeFrom_zero (text : List Char) : codeFrom text 0 = codePlaces text := by
  rw [codeFrom, codePlaces, List.range_eq_range', Nat.sub_zero]

theorem codeFrom_of_lt (inside : n < text.length) :
    codeFrom text n =
      if Bare (!isBlank ·) text n then n :: codeFrom text (n + 1) else codeFrom text (n + 1) := by
  have more : text.length - n = text.length - (n + 1) + 1 := by omega
  rw [codeFrom, more, List.range'_succ, List.filter_cons]
  simp only [decide_eq_true_eq, codeFrom]

theorem codeFrom_of_le (past : text.length ≤ n) : codeFrom text n = [] := by
  rw [codeFrom, Nat.sub_eq_zero_of_le past]
  rfl

theorem bare_of_mem_codeFrom {i : Nat} (member : i ∈ codeFrom text n) :
    n ≤ i ∧ Bare (!isBlank ·) text i := by
  obtain ⟨within, bare⟩ := List.mem_filter.1 member
  exact ⟨(List.mem_range'_1.1 within).1, of_decide_eq_true bare⟩

/-- The space in front of the first of some positions. One is owed from before `n`, or an
uncommented blank stands since then. -/
def leadSpace (text : List Char) (owed : Bool) (n : Nat) : List Nat → List Char
  | [] => []
  | i :: _ => if owed = true ∨ Parted text n i then [' '] else []

theorem withSpaces_cons (text : List Char) (i : Nat) (places : List Nat) :
    withSpaces text (i :: places) =
      text[i]?.toList ++ (leadSpace text false (i + 1) places ++ withSpaces text places) := by
  cases places with
  | nil => simp [withSpaces, leadSpace]
  | cons j later => simp [withSpaces, leadSpace]

theorem parted_succ_iff {m : Nat} (solid : ¬ Bare isBlank text n) :
    Parted text (n + 1) m ↔ Parted text n m := by
  constructor
  · rintro ⟨k, before, after, blank⟩
    exact ⟨k, before, Nat.le_of_succ_le after, blank⟩
  · rintro ⟨k, before, after, blank⟩
    rcases Nat.lt_or_eq_of_le after with later | rfl
    · exact ⟨k, before, later, blank⟩
    · exact absurd blank solid

theorem leadSpace_succ (solid : ¬ Bare isBlank text n) (owed : Bool) (places : List Nat) :
    leadSpace text owed (n + 1) places = leadSpace text owed n places := by
  cases places with
  | nil => rfl
  | cons i later => simp only [leadSpace, parted_succ_iff solid]

theorem leadSpace_of_blank (blank : Bare isBlank text n) (owed : Bool) :
    leadSpace text true (n + 1) (codeFrom text (n + 1)) =
      leadSpace text owed n (codeFrom text (n + 1)) := by
  cases places : codeFrom text (n + 1) with
  | nil => rfl
  | cons i later =>
    have before := (bare_of_mem_codeFrom (places ▸ List.mem_cons_self (a := i))).1
    have parted : Parted text n i := ⟨n, before, Nat.le_refl n, blank⟩
    simp [leadSpace, parted]

theorem tighten_of_solid (solid : isBlank c = false) (owed : Bool) (rest : List Char) :
    tighten owed (c :: rest) = (if owed = true then [' '] else []) ++ c :: tighten false rest := by
  cases owed <;> simp [tighten, solid]

theorem tighten_uncommented (owed : Bool) (n : Nat) :
    tighten owed (uncommented text n) =
      leadSpace text owed n (codeFrom text n) ++ withSpaces text (codeFrom text n) := by
  -- by induction on how many characters are left
  induction left : text.length - n generalizing owed n with
  | zero =>
    have past : text.length ≤ n := by omega
    rw [codeFrom_of_le past, uncommented, List.drop_eq_nil_of_le past]
    rfl
  | succ left' ih =>
    have inside : n < text.length := by omega
    have further := fun owed => ih owed (n + 1) (by omega)
    obtain ⟨c, here⟩ : ∃ c, text[n]? = some c := ⟨_, List.getElem?_eq_getElem inside⟩
    by_cases commented : Commented text n
    · have bare (kind : Char → Bool) : ¬ Bare kind text n := fun bare => bare.2 commented
      rw [uncommented_of_commented here commented, further, codeFrom_of_lt inside,
        if_neg (bare _), leadSpace_succ (bare _)]
    · rw [uncommented_of_bare here commented, codeFrom_of_lt inside]
      cases blank : isBlank c with
      | true =>
        have solid : ¬ Bare (!isBlank ·) text n := by simp [Bare, here, blank]
        have bare : Bare isBlank text n := by simp [Bare, here, blank, commented]
        rw [if_neg solid, ← leadSpace_of_blank bare, ← further]
        simp [tighten, blank]
      | false =>
        have solid : Bare (!isBlank ·) text n := by simp [Bare, here, blank, commented]
        have near : ¬ Parted text n n := by
          rintro ⟨k, before, after, _⟩
          omega
        rw [if_pos solid, tighten_of_solid blank, further, withSpaces_cons, here]
        simp [leadSpace, near]

theorem collapse_eq_dropWhile (owed : Bool) (text : List Char) :
    collapse text = (tighten owed text).dropWhile (· == ' ') := by
  induction text generalizing owed with
  | nil => rfl
  | cons c rest ih =>
    cases blank : isBlank c with
    | true =>
      have skips : collapse (c :: rest) = collapse rest := by simp [collapse, blank]
      rw [skips, ih true]
      simp [tighten, blank]
    | false =>
      have other := ne_space_of_not_isBlank blank
      rw [tighten_of_solid blank]
      cases owed <;> simp [collapse, tighten, blank, other]

theorem exists_of_mem_codeFrom {i : Nat} (member : i ∈ codeFrom text n) :
    ∃ c, text[i]? = some c ∧ c ≠ ' ' := by
  have solid := (bare_of_mem_codeFrom member).2.1
  cases here : text[i]? with
  | none =>
    rw [here] at solid
    cases solid
  | some c => exact ⟨c, rfl, ne_space_of_not_isBlank (by simpa [here] using solid)⟩

theorem dropWhile_leadSpace (owed : Bool) (n : Nat) :
    (leadSpace text owed n (codeFrom text n) ++ withSpaces text (codeFrom text n)).dropWhile
      (· == ' ') = withSpaces text (codeFrom text n) := by
  cases places : codeFrom text n with
  | nil => rfl
  | cons i later =>
    obtain ⟨c, here, solid⟩ := exists_of_mem_codeFrom (places ▸ List.mem_cons_self (a := i))
    rw [withSpaces_cons, here, leadSpace]
    split <;> simp [solid]

theorem normalForm_eq_withSpaces (text : List Char) :
    normalForm text = withSpaces text (codePlaces text) := by
  rw [normalForm, ← uncommented_zero, collapse_eq_dropWhile false, tighten_uncommented,
    dropWhile_leadSpace, codeFrom_zero]

theorem filter_withSpaces {places : List Nat}
    (solid : ∀ i ∈ places, ∃ c, text[i]? = some c ∧ c ≠ ' ') :
    (withSpaces text places).filter (· ≠ ' ') = places.filterMap (text[·]?) := by
  induction places with
  | nil => rfl
  | cons i places ih =>
    have ⟨⟨c, here, other⟩, later⟩ := List.forall_mem_cons.1 solid
    have lead : (leadSpace text false (i + 1) places).filter (· ≠ ' ') = [] := by
      cases places with
      | nil => rfl
      | cons j later =>
        rw [leadSpace]
        split <;> rfl
    rw [withSpaces_cons, List.filter_append, List.filter_append, lead, ih later, here]
    simp [here, other]

/-- The characters of a normal form that are not spaces are those of the source that are neither
commented nor blank, in order, with one space between two of them that an uncommented blank parts.
-/
theorem normal_form_keeps_code (source : String) :
    (Buffer.ofSource source).text.toList.filter (· ≠ ' ') =
      (codePlaces source.toList).filterMap (source.toList[·]?) ∧
    (Buffer.ofSource source).text.toList = withSpaces source.toList (codePlaces source.toList) := by
  have kept : (Buffer.ofSource source).text.toList =
      withSpaces source.toList (codePlaces source.toList) := by
    rw [Buffer.text, String.toList_ofList, Buffer.ofSource_chars, normalForm_eq_withSpaces]
  refine ⟨?_, kept⟩
  rw [kept, ← codeFrom_zero]
  exact filter_withSpaces fun i => exists_of_mem_codeFrom

/-- The newline of a comment parts nothing, and the blank in front of the comment does. -/
example : codePlaces "a#b\nc #\n#d\n\te".toList = [0, 4, 12] ∧
    withSpaces "a#b\nc #\n#d\n\te".toList [0, 4, 12] = "ac e".toList := by decide

end RpcSchema
