/-! Character classes as they are written inside a rule. A specification is read from the left:
three characters `X-Y` stand for the range from `X` to `Y`, and every other character stands for
itself. A range whose bounds do not increase is refused together with its specification. -/
namespace RpcSchema

inductive ClassItem where
  | single (char : Char)
  | range (low high : Char)
deriving DecidableEq, Repr

namespace ClassItem

def covers : ClassItem → Char → Bool
  | single char, c => c == char
  | range low high, c => decide (low ≤ c) && decide (c ≤ high)

def shown : ClassItem → List Char
  | single char => [char]
  | range low high => [low, '-', high]

theorem covers_single (char c : Char) : (single char).covers c = true ↔ c = char := by
  simp [covers]

theorem covers_range (low high c : Char) :
    (range low high).covers c = true ↔ low ≤ c ∧ c ≤ high := by
  simp [covers]

end ClassItem

structure BadRange where
  spec : String
  low : Char
  high : Char
deriving DecidableEq, Repr

structure CharClass where
  spec : String
  items : List ClassItem
deriving DecidableEq, Repr

namespace CharClass

def readItems (spec : String) : List Char → Except BadRange (List ClassItem)
  | low :: '-' :: high :: rest =>
    if low < high then
      match readItems spec rest with
      | .ok items => .ok (.range low high :: items)
      | .error bad => .error bad
    else .error ⟨spec, low, high⟩
  | char :: rest =>
    match readItems spec rest with
    | .ok items => .ok (.single char :: items)
    | .error bad => .error bad
  | [] => .ok []

def compile (spec : String) : Except BadRange CharClass :=
  match readItems spec spec.toList with
  | .ok items => .ok ⟨spec, items⟩
  | .error bad => .error bad

def covers (set : CharClass) (c : Char) : Bool :=
  set.items.any (·.covers c)

theorem covers_iff (set : CharClass) (c : Char) :
    set.covers c = true ↔ ∃ item ∈ set.items, item.covers c = true := by
  simp [covers]

theorem compile_spec {spec : String} {set : CharClass} (compiled : compile spec = .ok set) :
    set.spec = spec := by
  unfold compile at compiled
  split at compiled
  · cases compiled
    rfl
  · cases compiled

end CharClass

/-- The classes compiled so far. Each is found again under its specification. -/
abbrev ClassTable := List CharClass

namespace ClassTable

def find (table : ClassTable) (spec : String) : Option CharClass :=
  List.find? (fun set => set.spec == spec) table

/-- The class of a specification and the table that holds it. A specification that is refused
leaves no entry behind. -/
def fetch (table : ClassTable) (spec : String) : Except BadRange (CharClass × ClassTable) :=
  match table.find spec with
  | some set => .ok (set, table)
  | none =>
    match CharClass.compile spec with
    | .ok set => .ok (set, table ++ [set])
    | .error bad => .error bad

/-- Every entry is what compiling its own specification gives. -/
def Sound (table : ClassTable) : Prop :=
  ∀ set ∈ table, CharClass.compile set.spec = .ok set

theorem sound_nil : Sound [] := by
  simp [Sound]

theorem find_spec {table : ClassTable} {spec : String} {set : CharClass}
    (found : table.find spec = some set) : set.spec = spec := by
  simpa using List.find?_some found

theorem compile_of_find {table : ClassTable} {spec : String} {set : CharClass}
    (sound : table.Sound) (found : table.find spec = some set) :
    CharClass.compile spec = .ok set := by
  have entry := sound set (List.mem_of_find?_eq_some found)
  rwa [find_spec found] at entry

theorem fetch_value {table : ClassTable} (sound : table.Sound) (spec : String) :
    (table.fetch spec).map Prod.fst = CharClass.compile spec := by
  unfold fetch
  split
  · next set found =>
    rw [compile_of_find sound found]
    rfl
  · split
    · next set compiled => rw [compiled]; rfl
    · next bad refused => rw [refused]; rfl

theorem fetch_sound {table next : ClassTable} {spec : String} {set : CharClass}
    (sound : table.Sound) (fetched : table.fetch spec = .ok (set, next)) : next.Sound := by
  unfold fetch at fetched
  split at fetched
  · cases fetched
    exact sound
  · split at fetched
    · next compiled =>
      cases fetched
      intro entry member
      rcases List.mem_append.1 member with old | new
      · exact sound entry old
      · rw [List.mem_singleton] at new
        subst new
        rw [CharClass.compile_spec compiled]
        exact compiled
    · cases fetched

end ClassTable

end RpcSchema
