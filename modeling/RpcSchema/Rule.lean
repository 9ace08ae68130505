import RpcSchema.Buffer
import RpcSchema.Failure
import RpcSchema.Event

/-! Rules that read a buffer. A rule sees the whole buffer and a state: the offset of the next
unread character, the classes compiled so far, a journal, and whatever else the rules at hand keep.
It ends in a value or a failure, and in either case in a state. Only the offset is ever set back;
the state keeps the greatest one, so that a mark behind the end of the buffer would stay visible. -/
namespace RpcSchema

structure State (σ : Type) where
  offset : Nat
  /-- The greatest offset so far, marks that the offset was set back to included. -/
  reach : Nat
  le_reach : offset ≤ reach
  classes : ClassTable
  /-- Newest first. -/
  journal : List Event
  held : σ

namespace State

variable {σ τ : Type}

def initial (held : σ) : State σ := ⟨0, 0, Nat.le_refl 0, [], [], held⟩

def moveTo (s : State σ) (offset : Nat) : State σ :=
  { s with offset, reach := max s.reach offset, le_reach := Nat.le_max_right _ _ }

/-- The offset has been at `n` and is where it was. -/
def backFrom (s : State σ) (n : Nat) : State σ := (s.moveTo n).moveTo s.offset

def withClasses (s : State σ) (classes : ClassTable) : State σ := { s with classes }

def holding (s : State τ) (value : σ) : State σ := { s with held := value }

def note (s : State σ) (event : Event) : State σ := { s with journal := event :: s.journal }

def events (s : State σ) : List Event := s.journal.reverse

@[simp] theorem moveTo_offset (s : State σ) (n : Nat) : (s.moveTo n).offset = n := rfl
@[simp] theorem moveTo_reach (s : State σ) (n : Nat) : (s.moveTo n).reach = max s.reach n := rfl
@[simp] theorem moveTo_classes (s : State σ) (n : Nat) : (s.moveTo n).classes = s.classes := rfl
@[simp] theorem moveTo_journal (s : State σ) (n : Nat) : (s.moveTo n).journal = s.journal := rfl
@[simp] theorem moveTo_held (s : State σ) (n : Nat) : (s.moveTo n).held = s.held := rfl
@[simp] theorem withClasses_offset (s : State σ) (classes : ClassTable) :
    (s.withClasses classes).offset = s.offset := rfl
@[simp] theorem withClasses_classes (s : State σ) (classes : ClassTable) :
    (s.withClasses classes).classes = classes := rfl
@[simp] theorem withClasses_withClasses (s : State σ) (classes classes' : ClassTable) :
    (s.withClasses classes).withClasses classes' = s.withClasses classes' := rfl
@[simp] theorem holding_held (s : State τ) (value : σ) : (s.holding value).held = value := rfl
@[simp] theorem note_offset (s : State σ) (e : Event) : (s.note e).offset = s.offset := rfl
@[simp] theorem note_classes (s : State σ) (e : Event) : (s.note e).classes = s.classes := rfl
@[simp] theorem note_held (s : State σ) (e : Event) : (s.note e).held = s.held := rfl

theorem moveTo_self (s : State σ) : s.moveTo s.offset = s := by
  obtain ⟨offset, reach, le_reach, classes, journal, held⟩ := s
  simp only [moveTo, Nat.max_eq_left le_reach]

end State

def Rule (σ α : Type) : Type := Buffer → State σ → Except Failure α × State σ

namespace Rule

variable {σ τ α β : Type}

instance : Monad (Rule σ) where
  pure a := fun _ s => (.ok a, s)
  bind r f := fun b s =>
    match r b s with
    | (.ok a, s') => f a b s'
    | (.error e, s') => (.error e, s')

theorem pure_apply (a : α) (b : Buffer) (s : State σ) : (pure a : Rule σ α) b s = (.ok a, s) := rfl

theorem bind_of_ok {r : Rule σ α} {f : α → Rule σ β} {b : Buffer} {s s' : State σ} {a : α}
    (ran : r b s = (.ok a, s')) : (r >>= f) b s = f a b s' := by
  change (match r b s with
    | (.ok a, s') => f a b s'
    | (.error e, s') => (.error e, s')) = _
  rw [ran]

theorem bind_of_error {r : Rule σ α} {f : α → Rule σ β} {b : Buffer} {s s' : State σ}
    {e : Failure} (ran : r b s = (.error e, s')) : (r >>= f) b s = (.error e, s') := by
  change (match r b s with
    | (.ok a, s') => f a b s'
    | (.error e, s') => (.error e, s')) = _
  rw [ran]

def fail (failure : Failure) : Rule σ α := fun _ s => (.error failure, s)

def modify (f : State σ → State σ) : Rule σ Unit := fun _ s => (.ok (), f s)

def held : Rule σ σ := fun _ s => (.ok s.held, s)

def setHeld (value : σ) : Rule σ Unit := modify (·.holding value)

def note (event : Event) : Rule σ Unit := modify (·.note event)

def offset : Rule σ Nat := fun _ s => (.ok s.offset, s)

/-- The index of the last character read, `-1` before the first. -/
def position : Rule σ Int := fun _ s => (.ok (s.offset - 1), s)

def unread : Rule σ Nat := fun b s => (.ok (b.size - s.offset), s)

def peek : Rule σ (Option Char) := fun b s => (.ok (b.get? s.offset), s)

def advance : Rule σ (Option Char) := fun b s =>
  match b.get? s.offset with
  | some c => (.ok (some c), s.moveTo (s.offset + 1))
  | none => (.ok none, s)

/-- Steps over `count` characters, stopping at the end of the buffer. -/
def skip (count : Nat) : Rule σ Unit := fun b s =>
  (.ok (), s.moveTo (min (s.offset + count) b.size))

def startsWith (literal : String) : Rule σ Bool := fun b s =>
  (.ok (b.holds s.offset literal.toList), s)

def moveTo (offset : Nat) : Rule σ Unit := modify (·.moveTo offset)

def skipSpace : Rule σ Unit := fun b s => (.ok (), s.moveTo (b.pastSpace s.offset))

/-- A recoverable failure becomes `none`, a fatal one stays. -/
def recover (r : Rule σ α) : Rule σ (Option α) := fun b s =>
  match r b s with
  | (.ok a, s') => (.ok (some a), s')
  | (.error e, s') => if e.isFatal then (.error e, s') else (.ok none, s')

def expectedChar : Option String → String
  | some spec => "a character in [" ++ spec ++ "]"
  | none => "a character"

/-- Reads the next character, of the given class if there is one. The class is compiled only when
a character is there, and the offset stays where it is on failure. -/
def char (spec : Option String) : Rule σ Char := fun b s =>
  match b.get? s.offset with
  | none => (.error ⟨s.offset, .endOfInput (expectedChar spec)⟩, s)
  | some c =>
    match spec with
    | none => (.ok c, s.moveTo (s.offset + 1))
    | some spec =>
      match s.classes.fetch spec with
      | .error bad => (.error ⟨s.offset, .badRange bad⟩, s)
      | .ok (set, classes) =>
        let s := s.withClasses classes
        if set.covers c then (.ok c, s.moveTo (s.offset + 1))
        else (.error ⟨s.offset, .wrongChar spec c⟩, s)

def tryChar (spec : Option String) : Rule σ (Option Char) := recover (char spec)

/-- Reads the first of the literals that stands at the offset, with one space before and one after
it stepped over. The offset stays where it is on failure. -/
def keyword (literals : List String) : Rule σ String := fun b s =>
  let start := b.pastSpace s.offset
  if b.size ≤ start then
    (.error ⟨start, .endOfInput ("one of " ++ ", ".intercalate literals)⟩, s.backFrom start)
  else
    match literals.find? (fun literal => b.holds start literal.toList) with
    | some literal => (.ok literal, s.moveTo (b.pastSpace (start + literal.length)))
    | none => (.error ⟨start, .wrongKeyword literals⟩, s.backFrom start)

def tryKeyword (literals : List String) : Rule σ (Option String) := fun b s =>
  match keyword literals b s with
  | (.ok literal, s') => (.ok (some literal), s')
  | (.error _, s') => (.ok none, s')

/-- The values of a rule repeated until it gives none, but at most `limit` times. -/
def repeated (r : Rule σ (Option α)) : (limit : Nat) → Rule σ (List α)
  | 0 => pure []
  | limit + 1 => do
    match ← r with
    | none => pure []
    | some a => return a :: (← repeated r limit)

/-- Runs a rule that keeps less, on the part `get` of what is kept. -/
def within (get : τ → σ) (set : σ → τ → τ) (r : Rule σ α) : Rule τ α := fun b s =>
  match r b (s.holding (get s.held)) with
  | (result, s') => (result, s'.holding (set s'.held s.held))

theorem keyword_error {literals : List String} {b : Buffer} {s s' : State σ} {e : Failure}
    (ran : keyword literals b s = (.error e, s')) :
    s' = s.backFrom (b.pastSpace s.offset) ∧ e.isFatal = false := by
  unfold keyword at ran
  dsimp only at ran
  split at ran
  · cases ran
    exact ⟨rfl, rfl⟩
  · split at ran
    · cases ran
    · cases ran
      exact ⟨rfl, rfl⟩

/-- What a keyword can come to. A literal is read where it stands, behind a space. -/
theorem keyword_cases (literals : List String) (b : Buffer) (s : State σ) :
    let start := b.pastSpace s.offset
    (b.size ≤ start ∧ keyword literals b s =
      (.error ⟨start, .endOfInput ("one of " ++ ", ".intercalate literals)⟩, s.backFrom start)) ∨
    keyword literals b s = (.error ⟨start, .wrongKeyword literals⟩, s.backFrom start) ∨
    ∃ literal ∈ literals, b.holds start literal.toList = true ∧ keyword literals b s =
      (.ok literal, s.moveTo (b.pastSpace (start + literal.length))) := by
  intro start
  by_cases past : b.size ≤ start
  · exact .inl ⟨past, if_pos past⟩
  · refine .inr ?_
    cases found : literals.find? fun literal => b.holds start literal.toList with
    | none =>
      have ran : keyword literals b s =
          (.error ⟨start, .wrongKeyword literals⟩, s.backFrom start) := by
        simp only [keyword, start, if_neg past, found]
      exact .inl ran
    | some literal =>
      have ran : keyword literals b s =
          (.ok literal, s.moveTo (b.pastSpace (start + literal.length))) := by
        simp only [keyword, start, if_neg past, found]
      exact .inr ⟨literal, List.mem_of_find?_eq_some found, by simpa using List.find?_some found,
        ran⟩

theorem char_error_offset {spec : Option String} {b : Buffer} {s s' : State σ} {e : Failure}
    (ran : char spec b s = (.error e, s')) : s'.offset = s.offset ∧ e.position = s.offset := by
  unfold char at ran
  split at ran
  · cases ran
    exact ⟨rfl, rfl⟩
  · split at ran
    · cases ran
    · split at ran
      · cases ran
        exact ⟨rfl, rfl⟩
      · dsimp only at ran
        split at ran
        · cases ran
        · cases ran
          exact ⟨rfl, rfl⟩

end Rule

end RpcSchema
