import RpcSchema.Proofs.Lockstep

/-! Spacing. Two tight texts are spacings of each other when they differ only in spaces beside a
character that is not part of a name, and not within an arrow. They are read alike: as the same
declarations, or with the same failure behind as many characters other than spaces. -/
namespace RpcSchema

/-- The two characters are the same tokens with a space between them as without one. -/
def Loose (c d : Char) : Prop :=
  ¬(isNameChar c = true ∧ isNameChar d = true) ∧ ¬(c = '-' ∧ d = '>')

instance (c d : Char) : Decidable (Loose c d) :=
  inferInstanceAs (Decidable (¬(isNameChar c = true ∧ isNameChar d = true) ∧ ¬(c = '-' ∧ d = '>')))

def spaced (gap : Bool) (text : List Char) : List Char := if gap then ' ' :: text else text

/-- The same characters in two tight texts. Between two of them a space stands in both texts or in
neither, unless they are loose. -/
inductive Respaced : List Char → List Char → Prop where
  | nil : Respaced [] []
  | last (c : Char) (solid : c ≠ ' ') : Respaced [c] [c]
  | next (c d : Char) {text text' : List Char} (gap gap' : Bool) (solid : c ≠ ' ')
      (same : gap = gap' ∨ Loose c d) (rest : Respaced (d :: text) (d :: text')) :
      Respaced (c :: spaced gap (d :: text)) (c :: spaced gap' (d :: text'))

/-- How many characters of a text are not spaces. -/
def solids (text : List Char) : Nat := text.countP (· != ' ')

def Buffer.solidsBefore (b : Buffer) (position : Nat) : Nat :=
  solids (b.chars.toList.take position)

namespace Respaced

variable {text text' : List Char}

theorem symm (respaced : Respaced text text') : Respaced text' text := by
  induction respaced with
  | nil => exact .nil
  | last c solid => exact .last c solid
  | next c d gap gap' solid same rest ih =>
    exact .next c d gap' gap solid (same.imp Eq.symm id) ih

theorem head?_eq (respaced : Respaced text text') : text.head? = text'.head? := by
  cases respaced <;> rfl

theorem head?_ne_space (respaced : Respaced text text') : text.head? ≠ some ' ' := by
  cases respaced with
  | nil => simp
  | last c solid => simpa using solid
  | next c d gap gap' solid same rest => simpa using solid

theorem solids_eq (respaced : Respaced text text') : solids text = solids text' := by
  have gapless (gap : Bool) (c : Char) (text : List Char) :
      solids (c :: spaced gap text) = solids (c :: text) := by
    cases gap <;> simp [solids, spaced, List.countP_cons]
  induction respaced with
  | nil => rfl
  | last c solid => rfl
  | next c d gap gap' solid same rest ih =>
    rw [gapless, gapless]
    simpa [solids, List.countP_cons] using ih

theorem takeWhile_eq (respaced : Respaced text text') :
    text.takeWhile isNameChar = text'.takeWhile isNameChar := by
  have behind (gap : Bool) {c d : Char} (named : isNameChar c = true) (more : List Char) :
      (c :: spaced gap (d :: more)).takeWhile isNameChar =
        c :: if gap then [] else (d :: more).takeWhile isNameChar := by
    have space : isNameChar ' ' = false := rfl
    cases gap <;> simp [spaced, named, space]
  induction respaced with
  | nil => rfl
  | last c solid => rfl
  | next c d gap gap' solid same rest ih =>
    cases named : isNameChar c with
    | false => simp [named]
    | true =>
      rw [behind gap named, behind gap' named, ih]
      rcases same with rfl | loose
      · rfl
      · have ends : isNameChar d = false := by simpa [named] using loose.1
        simp [ends]

theorem tightText (respaced : Respaced text text') : TightText text := by
  refine ⟨by simpa [List.head?_eq_getElem?] using respaced.head?_ne_space, ?_⟩
  induction respaced with
  | nil => simp
  | last c solid =>
    intro i space
    cases i with
    | zero => exact absurd (Option.some.inj space) solid
    | succ i => cases space
  | next c d gap gap' solid same rest ih =>
    intro i space
    cases i with
    | zero => exact absurd (Option.some.inj space) solid
    | succ i =>
      cases gap with
      | false => exact ih i space
      | true =>
        cases i with
        | zero => exact ⟨d, rfl, by simpa using rest.head?_ne_space⟩
        | succ i => exact ih i space

/-- Behind characters of which no two are loose the texts go on, each with a space first or without
one. -/
theorem behind {literal more : List Char} (some : literal ≠ [])
    (firm : literal.Pairwise fun c d => ¬Loose c d) (respaced : Respaced (literal ++ more) text') :
    ∃ gap gap' rest rest', more = spaced gap rest ∧ text' = literal ++ spaced gap' rest' ∧
      Respaced rest rest' := by
  induction literal generalizing text' with
  | nil => exact absurd rfl some
  | cons c literal ih =>
    cases literal with
    | nil =>
      cases respaced with
      | last => exact ⟨false, false, [], [], rfl, rfl, .nil⟩
      | next c d gap gap' solid same rest => exact ⟨gap, gap', _, _, rfl, rfl, rest⟩
    | cons d literal =>
      obtain ⟨tied, firm⟩ := List.pairwise_cons.1 firm
      have bound : ¬Loose c d := tied d List.mem_cons_self
      generalize whole : c :: d :: literal ++ more = text at respaced
      cases respaced with
      | nil => cases whole
      | last => cases whole
      | @next _ d' rest rest' gap gap' solid same respaced =>
        cases gap with
        | false =>
          obtain ⟨rfl, rfl, rfl⟩ : c = _ ∧ d = d' ∧ literal ++ more = rest := by
            simpa [spaced] using whole
          obtain rfl : false = gap' := same.resolve_right bound
          obtain ⟨gap, gap', last, last', more, rest, respaced⟩ :=
            ih (List.cons_ne_nil d literal) firm respaced
          exact ⟨gap, gap', last, last', more, congrArg (c :: ·) rest, respaced⟩
        | true =>
          obtain ⟨_, rfl, _⟩ : c = _ ∧ d = ' ' ∧ _ := by simpa [spaced] using whole
          -- The space would be one of the literal, and a space is loose behind any character.
          have loose : Loose c ' ' :=
            ⟨fun both => absurd both.2 (by decide), fun both => absurd both.2 (by decide)⟩
          exact absurd loose bound

end Respaced

theorem Token.firm (t : Token) : t.chars.Pairwise fun c d => ¬Loose c d := by
  have names {text : List Char} (named : ∀ c ∈ text, isNameChar c = true) :
      text.Pairwise fun c d => ¬Loose c d :=
    List.pairwise_of_forall_mem_list fun c inside d inside' loose =>
      loose.1 ⟨named c inside, named d inside'⟩
  cases t with
  | keyword k => exact names (Token.named_of_isName (t := .keyword k) rfl)
  | word w => exact names w.named
  | sign s => cases s <;> decide

namespace Buffer

variable {b b' : Buffer} {o o' p p' : Nat}

theorem tail_pastSpace {gap : Bool} {rest : List Char} (here : b.tail o = spaced gap rest)
    (clear : rest.head? ≠ some ' ') : b.tail (b.pastSpace o) = rest := by
  cases gap with
  | false => exact (tail_pastSpace_of_clear (here ▸ clear)).trans here
  | true => exact tail_pastSpace_of_space here

theorem solids_tail_le (le : o ≤ p) : solids (b.tail p) ≤ solids (b.tail o) := by
  obtain ⟨n, rfl⟩ := Nat.exists_eq_add_of_le le
  rw [tail_add]
  exact (List.drop_sublist n _).countP_le

theorem lt_iff_solids (start : b.Start o) (start' : b.Start p) :
    o < p ↔ solids (b.tail p) < solids (b.tail o) := by
  constructor
  · intro lt
    have inside := Nat.lt_of_lt_of_le lt start'.le_size
    cases found : b.get? o with
    | none => exact absurd ((b.get?_eq_none_iff o).1 found) (Nat.not_le.2 inside)
    | some c =>
      have solid : (c != ' ') = true := bne_iff_ne.2 fun same => start.clear (same ▸ found)
      have fewer : solids (b.tail p) ≤ solids (b.tail (o + 1)) := solids_tail_le lt
      have one : solids (b.tail o) = solids (b.tail (o + 1)) + 1 := by
        simp [solids, tail_of_get? found, solid]
      omega
  · intro fewer
    refine Nat.lt_of_not_le fun le => ?_
    have more : solids (b.tail o) ≤ solids (b.tail p) := solids_tail_le le
    omega

theorem solidsBefore_add (b : Buffer) (position : Nat) :
    b.solidsBefore position + solids (b.tail position) = solids b.chars.toList := by
  rw [solidsBefore, tail, solids, solids, ← List.countP_append, List.take_append_drop, solids]

/-- The rest of one buffer is a spacing of the rest of the other. -/
structure Meets (b b' : Buffer) (o o' : Nat) : Prop where
  le_size : o ≤ b.size
  le_size' : o' ≤ b'.size
  tails : Respaced (b.tail o) (b'.tail o')

namespace Meets

theorem symm (meets : b.Meets b' o o') : b'.Meets b o' o :=
  ⟨meets.le_size', meets.le_size, meets.tails.symm⟩

theorem start (meets : b.Meets b' o o') : b.Start o :=
  ⟨meets.le_size, b.head?_tail o ▸ meets.tails.head?_ne_space⟩

theorem start' (meets : b.Meets b' o o') : b'.Start o' := meets.symm.start

theorem token (meets : b.Meets b' o o') {t : Token} (found : b.holds o t.chars = true) :
    b'.holds o' t.chars = true ∧
      Respaced (b.tail (b.pastToken o t)) (b'.tail (b'.pastToken o' t)) := by
  have tails := meets.tails
  rw [tail_of_holds found] at tails
  obtain ⟨gap, gap', rest, rest', more, tail', respaced⟩ := tails.behind t.chars_ne_nil t.firm
  obtain ⟨found', more'⟩ := holds_of_tail tail'
  refine ⟨found', ?_⟩
  rw [pastToken, pastToken, tail_pastSpace more respaced.head?_ne_space,
    tail_pastSpace more' respaced.symm.head?_ne_space]
  exact respaced

end Meets

theorem pairing_meets (respaced : Respaced b.chars.toList b'.chars.toList) :
    b.Pairing b' (b.Meets b') where
  tight := respaced.tightText
  tight' := respaced.symm.tightText
  start := Meets.start
  start' := Meets.start'
  get?_eq meets := by
    rw [← head?_tail, ← head?_tail]
    exact meets.tails.head?_eq
  wordAt_eq meets := meets.tails.takeWhile_eq
  holds_eq meets t :=
    Bool.eq_iff_iff.2 ⟨fun found => (meets.token found).1, fun found => (meets.symm.token found).1⟩
  pastToken meets t found := by
    obtain ⟨found', tails⟩ := meets.token found
    have tight : b.Tight := respaced.tightText
    have tight' : b'.Tight := respaced.symm.tightText
    exact ⟨(tight.start_pastToken found).le_size, (tight'.start_pastToken found').le_size, tails⟩
  lt_iff meets meets' := by
    rw [lt_iff_solids meets.start meets'.start, lt_iff_solids meets.start' meets'.start',
      meets.tails.solids_eq, meets'.tails.solids_eq]

theorem solidsBefore_eq (respaced : Respaced b.chars.toList b'.chars.toList)
    (meets : b.Meets b' o o') : b.solidsBefore o = b'.solidsBefore o' := by
  have left := b.solidsBefore_add o
  have right := b'.solidsBefore_add o'
  rw [respaced.solids_eq] at left
  rw [meets.tails.solids_eq] at left
  omega

end Buffer

/-- Two spacings of a text are read alike: as the same declarations, or with the same failure
behind as many characters other than spaces. -/
theorem reading_ignores_spacing (policy : Policy) {b b' : Buffer}
    (respaced : Respaced b.chars.toList b'.chars.toList) :
    (∃ d, (readBuffer policy b).1 = .ok d ∧ (readBuffer policy b').1 = .ok d) ∨
      ∃ e e', (readBuffer policy b).1 = .error e ∧ (readBuffer policy b').1 = .error e' ∧
        e.cause = e'.cause ∧ b.solidsBefore e.position = b'.solidsBefore e'.position := by
  have pairing := Buffer.pairing_meets respaced
  have first : b.Meets b' 0 0 := ⟨Nat.zero_le _, Nat.zero_le _, respaced⟩
  have beside : (State.initial Declared.nothing).Beside (b.Meets b') (.initial .nothing) :=
    ⟨⟨rfl, ClassTable.sound_nil, ClassTable.sound_nil⟩, first⟩
  have both : (Grammar.source policy).Parallel (b.Meets b') (Grammar.source policy) b b'
      (.initial .nothing) (.initial .nothing) (State.Beside (b.Meets b')) :=
    Grammar.parallel_source pairing beside
  cases both with
  | ok d t t' ran ran' met => exact .inl ⟨d, congrArg Prod.fst ran, congrArg Prod.fst ran'⟩
  | error e e' t t' ran ran' alike even =>
    exact .inr ⟨e, e', congrArg Prod.fst ran, congrArg Prod.fst ran', alike.cause,
      Buffer.solidsBefore_eq respaced alike.position⟩

/-- The name that is not declared starts two positions later in the second buffer, behind as many
characters other than spaces. -/
theorem reading_ignores_spacing_of_undeclared_name :
    let b := Buffer.ofText "method a(b"
    let b' := Buffer.ofText "method a ( b"
    Respaced b.chars.toList b'.chars.toList ∧
      ((∃ d, (readBuffer .strict b).1 = .ok d ∧ (readBuffer .strict b').1 = .ok d) ∨
        ∃ e e', (readBuffer .strict b).1 = .error e ∧ (readBuffer .strict b').1 = .error e' ∧
          e.cause = e'.cause ∧ b.solidsBefore e.position = b'.solidsBefore e'.position) := by
  intro b b'
  have respaced : Respaced b.chars.toList b'.chars.toList :=
    .next 'm' 'e' false false (by decide) (.inl rfl) <|
    .next 'e' 't' false false (by decide) (.inl rfl) <|
    .next 't' 'h' false false (by decide) (.inl rfl) <|
    .next 'h' 'o' false false (by decide) (.inl rfl) <|
    .next 'o' 'd' false false (by decide) (.inl rfl) <|
    .next 'd' 'a' true true (by decide) (.inl rfl) <|
    .next 'a' '(' false true (by decide) (.inr (by decide)) <|
    .next '(' 'b' false true (by decide) (.inr (by decide)) <|
    .last 'b' (by decide)
  exact ⟨respaced, reading_ignores_spacing .strict respaced⟩

end RpcSchema
