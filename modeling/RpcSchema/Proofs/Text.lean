import RpcSchema.Proofs.Script

/-! Text at a position of a buffer. A normal form is tight: a space stands only between two other
characters. In a tight buffer tokens are spelled from one position to another, each followed by one
space at most, and tokens spelled up to the end are the written form of the rest. -/
namespace RpcSchema

/-- A space stands only between two characters that are not spaces. -/
structure TightText (text : List Char) : Prop where
  first : text[0]? ≠ some ' '
  next : ∀ i, text[i]? = some ' ' → ∃ c, text[i + 1]? = some c ∧ c ≠ ' '

theorem ne_space_of_not_isBlank {c : Char} (h : isBlank c = false) : c ≠ ' ' := by
  rintro rfl
  exact absurd isBlank_space (by simp [h])

theorem tighten_next (owed : Bool) (text : List Char) (i : Nat)
    (space : (tighten owed text)[i]? = some ' ') :
    ∃ c, (tighten owed text)[i + 1]? = some c ∧ c ≠ ' ' := by
  induction text generalizing owed i with
  | nil => cases space
  | cons c rest ih =>
    by_cases blank : isBlank c = true
    · simp only [tighten, blank, if_true] at space ⊢
      exact ih true i space
    · have solid := ne_space_of_not_isBlank (by simpa using blank)
      cases owed with
      | false =>
        simp only [tighten, blank, if_false, Bool.false_eq_true] at space ⊢
        cases i with
        | zero => simp [solid] at space
        | succ i => simpa using ih false i (by simpa using space)
      | true =>
        simp only [tighten, blank, if_false, if_true, Bool.false_eq_true] at space ⊢
        match i with
        | 0 => exact ⟨c, rfl, solid⟩
        | 1 => simp [solid] at space
        | i + 2 => simpa using ih false i (by simpa using space)

theorem tightText_collapse (text : List Char) : TightText (collapse text) := by
  refine ⟨?_, fun i => tighten_next false _ i⟩
  unfold collapse
  cases rest : text.dropWhile isBlank with
  | nil => simp [tighten]
  | cons c rest' =>
    have head : isBlank c = false := by
      have := List.head?_dropWhile_not isBlank text
      simpa [rest] using this
    simp [tighten, head, ne_space_of_not_isBlank head]

theorem tightText_normalForm (source : List Char) : TightText (normalForm source) :=
  tightText_collapse _

theorem toNat_of_isNameChar {c : Char} (h : isNameChar c = true) :
    48 ≤ c.toNat ∧ c.toNat ≤ 122 := by
  simp only [isNameChar, Bool.or_eq_true, Bool.and_eq_true, decide_eq_true_eq, beq_iff_eq,
    Char.le_def, UInt32.le_iff_toNat_le] at h
  unfold Char.toNat
  rcases h with (((digit | upper) | lower) | rfl) | rfl
  · change 48 ≤ c.val.toNat ∧ c.val.toNat ≤ 57 at digit
    omega
  · change 65 ≤ c.val.toNat ∧ c.val.toNat ≤ 90 at upper
    omega
  · change 97 ≤ c.val.toNat ∧ c.val.toNat ≤ 122 at lower
    omega
  · decide
  · decide

theorem not_isBlank_of_isNameChar {c : Char} (h : isNameChar c = true) : isBlank c = false := by
  have bounds := toNat_of_isNameChar h
  simp [isBlank, blankRanges]
  omega

theorem ne_hash_of_isNameChar {c : Char} (h : isNameChar c = true) : c ≠ '#' := by
  rintro rfl
  cases h

theorem Token.plain (t : Token) : ∀ c ∈ t.chars, isBlank c = false ∧ c ≠ '#' := by
  -- The characters of a keyword or a sign are tried one by one.
  have tried {text : List Char}
      (all : (text.all fun c => decide (isBlank c = false ∧ c ≠ '#')) = true) :
      ∀ c ∈ text, isBlank c = false ∧ c ≠ '#' :=
    fun c member => of_decide_eq_true (List.all_eq_true.1 all c member)
  cases t with
  | word w =>
    intro c member
    have named := w.named c member
    exact ⟨not_isBlank_of_isNameChar named, ne_hash_of_isNameChar named⟩
  | keyword k => exact tried (by cases k <;> decide)
  | sign s => exact tried (by cases s <;> decide)

theorem Written.begins {greedy : Token → Bool} {t : Token} {rest : List Token} {text : List Char}
    (written : Written greedy (t :: rest) text) : ∃ more, text = t.chars ++ more := by
  cases written with
  | last => exact ⟨[], (List.append_nil _).symm⟩
  | joined => exact ⟨_, rfl⟩
  | spaced => exact ⟨_, rfl⟩

theorem Written.ne_nil {greedy : Token → Bool} {t : Token} {rest : List Token} {text : List Char}
    (written : Written greedy (t :: rest) text) : text ≠ [] := by
  obtain ⟨more, rfl⟩ := written.begins
  simp [t.chars_ne_nil]

theorem Written.head?_ne_space {greedy : Token → Bool} {t : Token} {rest : List Token}
    {text : List Char} (written : Written greedy (t :: rest) text) : text.head? ≠ some ' ' := by
  obtain ⟨more, rfl⟩ := written.begins
  cases chars : t.chars with
  | nil => exact absurd chars t.chars_ne_nil
  | cons c later =>
    have plain := (t.plain c (by simp [chars])).1
    simp [ne_space_of_not_isBlank plain]

theorem endsName_nil : EndsName [] := by simp [EndsName]

theorem endsName_cons (c : Char) (rest : List Char) :
    EndsName (c :: rest) ↔ isNameChar c = false := by
  simp [EndsName]

theorem endsName_dropWhile (text : List Char) : EndsName (text.dropWhile isNameChar) := by
  intro c first
  have stopped := List.head?_dropWhile_not isNameChar text
  simpa [first] using stopped

theorem takeWhile_eq_nil_iff_endsName (text : List Char) :
    text.takeWhile isNameChar = [] ↔ EndsName text := by
  cases text with
  | nil => simp [endsName_nil]
  | cons c rest => cases named : isNameChar c <;> simp [endsName_cons, named]

theorem takeWhile_append_of_endsName {name rest : List Char}
    (named : ∀ c ∈ name, isNameChar c = true) (ends : EndsName rest) :
    (name ++ rest).takeWhile isNameChar = name := by
  rw [List.takeWhile_append_of_pos named, (takeWhile_eq_nil_iff_endsName rest).2 ends,
    List.append_nil]

namespace Buffer

structure Start (b : Buffer) (o : Nat) : Prop where
  le_size : o ≤ b.size
  clear : b.get? o ≠ some ' '

def Tight (b : Buffer) : Prop := TightText b.chars.toList

variable {b : Buffer} {o : Nat}

theorem tight_ofSource (source : String) : (ofSource source).Tight := by
  unfold Tight
  rw [ofSource_chars]
  exact tightText_normalForm _

theorem tail_ofSource (source : String) : (ofSource source).tail 0 = normalForm source.toList := by
  rw [tail, ofSource_chars, List.drop_zero]

theorem get?_eq_getElem? (b : Buffer) (o : Nat) : b.get? o = b.chars.toList[o]? := by
  simp [get?]

theorem Tight.start_zero (tight : b.Tight) : b.Start 0 :=
  ⟨Nat.zero_le _, by rw [get?_eq_getElem?]; exact tight.first⟩

theorem Tight.get?_succ (tight : b.Tight) (space : b.get? o = some ' ') :
    ∃ c, b.get? (o + 1) = some c ∧ c ≠ ' ' := by
  rw [get?_eq_getElem?] at space ⊢
  exact tight.next o space

theorem Start.pastSpace_eq (start : b.Start o) : b.pastSpace o = o := by
  simp [pastSpace, start.clear]

theorem Tight.start_pastSpace (tight : b.Tight) (inside : o ≤ b.size) :
    b.Start (b.pastSpace o) := by
  refine ⟨b.pastSpace_le inside, ?_⟩
  unfold pastSpace
  split
  · next space =>
    obtain ⟨c, found, solid⟩ := tight.get?_succ space
    simp [found, solid]
  · assumption

theorem tail_add (b : Buffer) (o n : Nat) : b.tail (o + n) = (b.tail o).drop n := by
  simp [tail]

theorem length_tail (b : Buffer) (o : Nat) : (b.tail o).length = b.size - o := by
  simp [tail, size]

theorem head?_tail (b : Buffer) (o : Nat) : (b.tail o).head? = b.get? o := by
  simp [tail, get?]

theorem tail_of_get? {c : Char} (found : b.get? o = some c) : b.tail o = c :: b.tail (o + 1) := by
  obtain ⟨rest, split⟩ := List.head?_eq_some_iff.1 ((b.head?_tail o).trans found)
  rw [tail_add, split]
  rfl

theorem tail_of_holds {literal : List Char} (found : b.holds o literal = true) :
    b.tail o = literal ++ b.tail (o + literal.length) := by
  rw [tail_add]
  exact List.prefix_iff_eq_append.1 ((b.holds_iff_isPrefixOf o literal).1 found) |>.symm

theorem holds_of_tail {literal rest : List Char} (split : b.tail o = literal ++ rest) :
    b.holds o literal = true ∧ b.tail (o + literal.length) = rest := by
  rw [holds_iff_isPrefixOf, tail_add, split]
  exact ⟨List.prefix_append _ _, List.drop_left⟩

theorem tail_pastSpace_of_clear (clear : (b.tail o).head? ≠ some ' ') :
    b.tail (b.pastSpace o) = b.tail o := by
  rw [head?_tail] at clear
  rw [pastSpace, if_neg clear]

theorem tail_pastSpace_of_space {rest : List Char} (space : b.tail o = ' ' :: rest) :
    b.tail (b.pastSpace o) = rest := by
  have found : b.get? o = some ' ' := by
    rw [← head?_tail, space]
    rfl
  rw [pastSpace, if_pos found, tail_add, space]
  rfl

theorem endsName_tail_iff (b : Buffer) (o : Nat) :
    EndsName (b.tail o) ↔ ∀ c, b.get? o = some c → isNameChar c = false := by
  rw [EndsName, head?_tail]

def wordAt (b : Buffer) (o : Nat) : List Char := (b.tail o).takeWhile isNameChar

theorem wordAt_eq_nil_iff (b : Buffer) (o : Nat) : b.wordAt o = [] ↔ EndsName (b.tail o) :=
  takeWhile_eq_nil_iff_endsName _

theorem wordAt_of_get? {c : Char} (found : b.get? o = some c) (named : isNameChar c = true) :
    b.wordAt o = c :: b.wordAt (o + 1) := by
  simp [wordAt, tail_of_get? found, named]

theorem named_of_mem_wordAt {c : Char} (member : c ∈ b.wordAt o) : isNameChar c = true :=
  List.all_eq_true.1 List.all_takeWhile c member

theorem exists_word (some : b.wordAt o ≠ []) :
    ∃ w : Word, w.text = String.ofList (b.wordAt o) ∧ b.wordAt o = (Token.word w).chars := by
  have chars : (String.ofList (b.wordAt o)).toList = b.wordAt o := String.toList_ofList
  refine ⟨⟨String.ofList (b.wordAt o), chars.symm ▸ some, fun c member => ?_⟩, rfl, chars.symm⟩
  rw [chars] at member
  exact named_of_mem_wordAt member

theorem holds_wordAt (b : Buffer) (o : Nat) : b.holds o (b.wordAt o) = true := by
  rw [holds_iff_isPrefixOf]
  exact List.takeWhile_prefix _

theorem endsName_wordAt (b : Buffer) (o : Nat) :
    EndsName (b.tail (o + (b.wordAt o).length)) := by
  have split : b.tail o = b.wordAt o ++ (b.tail o).dropWhile isNameChar :=
    List.takeWhile_append_dropWhile.symm
  have rest := (tail_of_holds (b.holds_wordAt o)).symm.trans split
  rw [List.append_cancel_left rest]
  exact endsName_dropWhile _

theorem wordAt_of_holds {name : List Char} (found : b.holds o name = true)
    (named : ∀ c ∈ name, isNameChar c = true) (ends : EndsName (b.tail (o + name.length))) :
    b.wordAt o = name := by
  rw [wordAt, tail_of_holds found]
  exact takeWhile_append_of_endsName named ends

/-- The token stands at the position. A greedy one runs as far as name characters go. -/
structure Has (b : Buffer) (greedy : Token → Bool) (o : Nat) (t : Token) : Prop where
  holds : b.holds o t.chars = true
  ends : greedy t = true → EndsName (b.tail (o + t.chars.length))

/-- The position behind a token and the space that may follow it. -/
def pastToken (b : Buffer) (o : Nat) (t : Token) : Nat := b.pastSpace (o + t.chars.length)

/-- Tokens stand from one position to another, each with a space behind it stepped over. -/
def Spells (b : Buffer) (greedy : Token → Bool) : Nat → List Token → Nat → Prop
  | o, [], o' => o = o'
  | o, t :: rest, o' => b.Has greedy o t ∧ b.Spells greedy (b.pastToken o t) rest o'

variable {greedy : Token → Bool} {o' : Nat} {t : Token}

theorem inside_of_holds (found : b.holds o t.chars = true) : o + t.chars.length ≤ b.size := by
  refine size_le_of_holds found (Nat.le_of_not_lt fun past => ?_)
  have short := ((b.holds_iff_isPrefixOf o t.chars).1 found).length_le
  rw [(b.tail_eq_nil_iff o).2 (Nat.le_of_lt past)] at short
  exact absurd (List.length_pos_iff.2 t.chars_ne_nil) (Nat.not_lt.2 short)

theorem lt_pastToken (b : Buffer) (o : Nat) (t : Token) : o < b.pastToken o t := by
  have long := List.length_pos_iff.2 t.chars_ne_nil
  have reached := b.le_pastSpace (o + t.chars.length)
  rw [pastToken]
  omega

theorem Tight.start_pastToken (tight : b.Tight) (found : b.holds o t.chars = true) :
    b.Start (b.pastToken o t) :=
  tight.start_pastSpace (inside_of_holds found)

theorem has_word (greedy : Token → Bool) {w : Word} (word : b.wordAt o = (Token.word w).chars) :
    b.Has greedy o (.word w) :=
  ⟨word ▸ b.holds_wordAt o, fun _ => word ▸ b.endsName_wordAt o⟩

theorem Has.lazy (lazy : greedy t = false) (found : b.holds o t.chars = true) :
    b.Has greedy o t :=
  ⟨found, fun greedyToken => by rw [lazy] at greedyToken; cases greedyToken⟩

theorem Has.wordAt (has : b.Has greedy o t) (name : t.isName = true)
    (greedyName : greedy t = true) : b.wordAt o = t.chars :=
  wordAt_of_holds has.holds (Token.named_of_isName name) (has.ends greedyName)

theorem Has.mono {lazy : Token → Bool} (has : b.Has greedy o t)
    (weaker : ∀ t, lazy t = true → greedy t = true) : b.Has lazy o t :=
  ⟨has.holds, fun h => has.ends (weaker t h)⟩

theorem spells_append (ts us : List Token) :
    b.Spells greedy o (ts ++ us) o' ↔ ∃ m, b.Spells greedy o ts m ∧ b.Spells greedy m us o' := by
  induction ts generalizing o with
  | nil => simp [Spells]
  | cons t rest ih => simp [Spells, ih, and_assoc]

namespace Spells

variable {ts : List Token}

theorem mono {lazy : Token → Bool} (weaker : ∀ t, lazy t = true → greedy t = true)
    (spelled : b.Spells greedy o ts o') : b.Spells lazy o ts o' := by
  induction ts generalizing o with
  | nil => exact spelled
  | cons t rest ih => exact ⟨spelled.1.mono weaker, ih spelled.2⟩

theorem le (spelled : b.Spells greedy o ts o') : o ≤ o' := by
  induction ts generalizing o with
  | nil => exact Nat.le_of_eq spelled
  | cons t rest ih => exact Nat.le_trans (Nat.le_of_lt (b.lt_pastToken o t)) (ih spelled.2)

theorem lt (spelled : b.Spells greedy o ts o') (some : ts ≠ []) : o < o' := by
  cases ts with
  | nil => exact absurd rfl some
  | cons t rest => exact Nat.lt_of_lt_of_le (b.lt_pastToken o t) spelled.2.le

theorem start (spelled : b.Spells greedy o ts o') (tight : b.Tight) (start : b.Start o) :
    b.Start o' := by
  induction ts generalizing o with
  | nil => exact spelled ▸ start
  | cons t rest ih => exact ih spelled.2 (tight.start_pastToken spelled.1.holds)

end Spells

theorem written_of_spells (tight : b.Tight) {ts : List Token}
    (spelled : b.Spells greedy o ts b.size) : Written greedy ts (b.tail o) := by
  induction ts generalizing o with
  | nil =>
    rw [(b.tail_eq_nil_iff o).2 (Nat.le_of_eq (Eq.symm spelled))]
    exact .nil
  | cons t rest ih =>
    obtain ⟨⟨found, ends⟩, spelled⟩ := spelled
    have written := ih spelled
    rw [tail_of_holds found]
    -- A space behind the token is written only when another token comes after it.
    by_cases space : b.get? (o + t.chars.length) = some ' '
    · have past : b.pastToken o t = o + t.chars.length + 1 := by
        simp [pastToken, pastSpace, space]
      rw [past] at written spelled
      obtain ⟨c, next, _⟩ := tight.get?_succ space
      have more := lt_size_of_get? next
      rw [tail_of_get? space]
      cases rest with
      | nil => exact absurd spelled (by simp only [Spells]; omega)
      | cons u rest => exact .spaced t u written
    · have past : b.pastToken o t = o + t.chars.length := by
        simp [pastToken, pastSpace, space]
      rw [past] at written spelled
      cases rest with
      | nil =>
        rw [(b.tail_eq_nil_iff _).2 (Nat.le_of_eq (Eq.symm spelled)), List.append_nil]
        exact .last t
      | cons u rest => exact .joined t u ends written

theorem has_of_written {t u : Token} {us : List Token} {text rest : List Char}
    (written : Written greedy (t :: u :: us) text) (here : b.tail o = text ++ rest) :
    b.Has greedy o t ∧
      ∃ later, Written greedy (u :: us) later ∧ b.tail (b.pastToken o t) = later ++ rest := by
  cases written with
  | @joined _ _ _ later ends written =>
    rw [List.append_assoc] at here
    obtain ⟨found, behind⟩ := holds_of_tail here
    obtain ⟨c, more, rfl⟩ := List.exists_cons_of_ne_nil written.ne_nil
    refine ⟨⟨found, fun greedyName => ?_⟩, c :: more, written, ?_⟩
    · rw [behind, List.cons_append, endsName_cons]
      exact (endsName_cons _ _).1 (ends greedyName)
    · rw [pastToken, tail_pastSpace_of_clear (by rw [behind]; exact written.head?_ne_space)]
      exact behind
  | @spaced _ _ _ later written =>
    rw [List.append_assoc] at here
    obtain ⟨found, behind⟩ := holds_of_tail here
    exact ⟨⟨found, fun _ => behind ▸ (endsName_cons _ _).2 rfl⟩, later, written,
      tail_pastSpace_of_space behind⟩

/-- Tokens that are written before another one are spelled up to where that one starts, whatever
follows it. -/
theorem spells_of_written_append {ts us : List Token} {u : Token} {text rest : List Char}
    (written : Written greedy (ts ++ u :: us) text) (here : b.tail o = text ++ rest) :
    ∃ o' later, b.Spells greedy o ts o' ∧ Written greedy (u :: us) later ∧
      b.tail o' = later ++ rest := by
  induction ts generalizing o text with
  | nil => exact ⟨o, text, rfl, written, here⟩
  | cons t ts ih =>
    obtain ⟨v, vs, next⟩ := List.exists_cons_of_ne_nil (List.append_ne_nil_of_right_ne_nil ts
      (List.cons_ne_nil u us))
    rw [List.cons_append, next] at written
    obtain ⟨has, text', written', behind⟩ := has_of_written written here
    obtain ⟨o', later, spelled, writtenLast, last⟩ := ih (next ▸ written') behind
    exact ⟨o', later, ⟨has, spelled⟩, writtenLast, last⟩

theorem spells_of_written {ts : List Token} {text : List Char} (written : Written greedy ts text)
    (inside : o ≤ b.size) (here : b.tail o = text) : b.Spells greedy o ts b.size := by
  rcases List.eq_nil_or_concat ts with rfl | ⟨init, t, rfl⟩
  · cases written
    exact Nat.le_antisymm inside ((b.tail_eq_nil_iff o).1 here)
  · rw [List.concat_eq_append] at written ⊢
    obtain ⟨o', later, spelled, final, last⟩ :=
      spells_of_written_append written (here.trans (List.append_nil text).symm)
    cases final
    obtain ⟨found, rest⟩ := holds_of_tail last
    have past := (b.tail_eq_nil_iff _).1 rest
    have ended : b.get? (o' + t.chars.length) = none := (b.get?_eq_none_iff _).2 past
    refine (spells_append _ _).2 ⟨o', spelled, ⟨found, fun _ => rest ▸ endsName_nil⟩, ?_⟩
    simp only [Spells, pastToken, pastSpace, ended]
    exact Nat.le_antisymm (inside_of_holds found) past

end Buffer

end RpcSchema
