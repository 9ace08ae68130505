/-! Maps from names to values that keep the order in which names were first inserted. Inserting a
name again replaces its value and leaves its place. -/
namespace RpcSchema

universe u

/-- Replaces the value of a name where it stands, or appends the entry. -/
def putEntry {α : Type u} (name : String) (value : α) : List (String × α) → List (String × α)
  | [] => [(name, value)]
  | entry :: rest =>
    if entry.1 = name then (name, value) :: rest else entry :: putEntry name value rest

theorem keys_putEntry {α : Type u} (name : String) (value : α) (entries : List (String × α)) :
    (putEntry name value entries).map Prod.fst =
      if name ∈ entries.map Prod.fst then entries.map Prod.fst
      else entries.map Prod.fst ++ [name] := by
  induction entries with
  | nil => rfl
  | cons entry rest ih =>
    by_cases here : entry.1 = name
    · simp [putEntry, here]
    · have other : ¬ name = entry.1 := fun same => here same.symm
      by_cases later : name ∈ rest.map Prod.fst
      · rw [if_pos later] at ih
        simp only [putEntry, here, if_false, List.map_cons, ih]
        rw [if_pos (List.mem_cons_of_mem _ later)]
      · rw [if_neg later] at ih
        simp only [putEntry, here, if_false, List.map_cons, ih]
        rw [if_neg (by simpa [other] using later)]
        rfl

theorem keys_putEntry_nodup {α : Type u} (name : String) (value : α)
    {entries : List (String × α)} (nodup : (entries.map Prod.fst).Nodup) :
    ((putEntry name value entries).map Prod.fst).Nodup := by
  rw [keys_putEntry]
  split
  · exact nodup
  · next absent =>
    rw [List.nodup_append]
    refine ⟨nodup, by simp, ?_⟩
    intro key member last final same
    rw [List.mem_singleton] at final
    subst final
    exact absent (same ▸ member)

structure OrderedMap (α : Type u) where
  entries : List (String × α)
  keys_nodup : (entries.map Prod.fst).Nodup
deriving DecidableEq

namespace OrderedMap

variable {α : Type u}

@[ext] theorem ext {m n : OrderedMap α} (same : m.entries = n.entries) : m = n := by
  cases m
  cases n
  cases same
  rfl

def empty : OrderedMap α := ⟨[], List.nodup_nil⟩

instance : Inhabited (OrderedMap α) := ⟨empty⟩

def insert (m : OrderedMap α) (name : String) (value : α) : OrderedMap α :=
  ⟨putEntry name value m.entries, keys_putEntry_nodup name value m.keys_nodup⟩

def get? (m : OrderedMap α) (name : String) : Option α := m.entries.lookup name

def contains (m : OrderedMap α) (name : String) : Bool := (m.get? name).isSome

def keys (m : OrderedMap α) : List String := m.entries.map Prod.fst

def size (m : OrderedMap α) : Nat := m.entries.length

def isEmpty (m : OrderedMap α) : Bool := m.entries.isEmpty

def ofList (pairs : List (String × α)) : OrderedMap α :=
  pairs.foldl (fun m pair => m.insert pair.1 pair.2) empty

theorem keys_insert (m : OrderedMap α) (name : String) (value : α) :
    (m.insert name value).keys = if name ∈ m.keys then m.keys else m.keys ++ [name] :=
  keys_putEntry name value m.entries

theorem lookup_putEntry (name other : String) (value : α) (entries : List (String × α)) :
    (putEntry name value entries).lookup other =
      if other = name then some value else entries.lookup other := by
  induction entries with
  | nil =>
    by_cases same : other = name
    · simp [putEntry, same]
    · have no : (other == name) = false := by simp [same]
      simp [putEntry, List.lookup_cons, same, no]
  | cons entry rest ih =>
    obtain ⟨key, old⟩ := entry
    by_cases here : key = name
    · subst here
      by_cases same : other = key
      · simp [putEntry, same]
      · have no : (other == key) = false := by simp [same]
        simp [putEntry, List.lookup_cons, same, no]
    · by_cases first : other = key
      · subst first
        simp [putEntry, here]
      · have no : (other == key) = false := by simp [first]
        simp only [putEntry, here, if_false, List.lookup_cons, no, ih]

theorem get?_insert (m : OrderedMap α) (name other : String) (value : α) :
    (m.insert name value).get? other = if other = name then some value else m.get? other :=
  lookup_putEntry name other value m.entries

theorem get?_eq_none_iff (m : OrderedMap α) (name : String) :
    m.get? name = none ↔ name ∉ m.keys := by
  unfold get? keys
  induction m.entries with
  | nil => simp
  | cons entry rest ih =>
    obtain ⟨key, value⟩ := entry
    by_cases first : name = key
    · subst first
      simp
    · have no : (name == key) = false := by simp [first]
      simp only [List.lookup_cons, no, ih, List.map_cons, List.mem_cons, first, false_or]

end OrderedMap

end RpcSchema
