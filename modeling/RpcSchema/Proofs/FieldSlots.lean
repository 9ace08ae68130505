import Mathlib.Data.Finset.Card
import Mathlib.Data.List.Induction
import RpcSchema.Schema

/-! Bodies as rows of insertions. A name keeps the place of its first insertion and has the type of
its last one, and nothing else of the row is left. So it is also when every slot holds its field
whole, with a name of its own beside the key that it is found under. -/
namespace RpcSchema

namespace OrderedMap

universe u

variable {α : Type u} {m n : OrderedMap α} {name : String} {value : α}

theorem ofList_concat (pairs : List (String × α)) (pair : String × α) :
    ofList (pairs ++ [pair]) = (ofList pairs).insert pair.1 pair.2 := by
  rw [ofList, List.foldl_append]
  rfl

theorem keys_ofList (pairs : List (String × α)) :
    (ofList pairs).keys = (pairs.map Prod.fst).eraseDups := by
  induction pairs using List.reverseRecOn with
  | nil => rfl
  | append_singleton pairs pair ih =>
    rw [ofList_concat, keys_insert, ih, List.map_append, List.eraseDups_append]
    by_cases known : pair.1 ∈ pairs.map Prod.fst
    · rw [if_pos (List.mem_eraseDups.2 known)]
      simp [List.removeAll, known]
    · rw [if_neg (mt List.mem_eraseDups.1 known)]
      simp [List.removeAll, known, List.eraseDups_cons]

theorem get?_ofList (pairs : List (String × α)) (name : String) :
    (ofList pairs).get? name = pairs.reverse.lookup name := by
  induction pairs using List.reverseRecOn with
  | nil => rfl
  | append_singleton pairs pair ih =>
    obtain ⟨key, value⟩ := pair
    rw [ofList_concat, get?_insert, ih, List.reverse_append, List.reverse_singleton,
      List.singleton_append, List.lookup_cons]
    by_cases same : name = key
    · rw [if_pos same, beq_iff_eq.2 same]
    · rw [if_neg same, beq_eq_false_iff_ne.2 same]

theorem get?_of_mem (member : (name, value) ∈ m.entries) : m.get? name = some value := by
  obtain ⟨entries, nodup⟩ := m
  unfold get?
  induction entries with
  | nil => cases member
  | cons entry rest ih =>
    rw [List.map_cons, List.nodup_cons] at nodup
    rcases List.mem_cons.1 member with rfl | later
    · rw [List.lookup_cons, beq_self_eq_true]
    · have other : (name == entry.1) = false := by
        rw [beq_eq_false_iff_ne]
        rintro rfl
        exact nodup.1 (List.mem_map.2 ⟨(entry.1, value), later, rfl⟩)
      rw [List.lookup_cons, other]
      exact ih nodup.2 later

theorem eq_iff_keys_get? : m = n ↔ m.keys = n.keys ∧ ∀ name, m.get? name = n.get? name := by
  refine ⟨fun same => by rw [same]; exact ⟨rfl, fun _ => rfl⟩, fun ⟨order, values⟩ => ?_⟩
  apply ext
  -- With the keys of an entry goes its value, and that is looked up in either map.
  have spread (m : OrderedMap α) :
      m.entries.map (fun entry => (entry.1, some entry.2)) =
        m.keys.map fun name => (name, m.get? name) := by
    rw [keys, List.map_map]
    exact List.map_congr_left fun entry member => Prod.ext rfl (get?_of_mem member).symm
  have same := spread m
  rw [order, funext values, ← spread n] at same
  refine (List.map_inj_right fun entry entry' equal => ?_).1 same
  obtain ⟨names, types⟩ := Prod.mk.inj equal
  exact Prod.ext names (Option.some.inj types)

theorem putEntry_of_mem {entries : List (String × α)} (known : name ∈ entries.map Prod.fst)
    (nodup : (entries.map Prod.fst).Nodup) (value : α) :
    putEntry name value entries =
      entries.map fun entry => if entry.1 = name then (name, value) else entry := by
  induction entries with
  | nil => cases known
  | cons entry rest ih =>
    rw [List.map_cons, List.nodup_cons] at nodup
    rw [putEntry, List.map_cons]
    by_cases here : entry.1 = name
    · have others : rest.map (fun entry => if entry.1 = name then (name, value) else entry) =
          rest.map id := by
        refine List.map_congr_left fun other member => if_neg fun same => nodup.1 ?_
        rw [here, ← same]
        exact List.mem_map_of_mem member
      rw [if_pos here, if_pos here, others, List.map_id]
    · have later : name ∈ rest.map Prod.fst :=
        (List.mem_cons.1 known).resolve_left fun same => here same.symm
      rw [if_neg here, if_neg here, ih later nodup.2]

theorem entries_insert_of_mem (known : name ∈ m.keys) (value : α) :
    (m.insert name value).entries =
      m.entries.map fun entry => if entry.1 = name then (name, value) else entry :=
  putEntry_of_mem known m.keys_nodup value

end OrderedMap

/-- A field as a slot holds it, with the type as written. -/
structure NamedType where
  name : String
  type : String
deriving DecidableEq

/-- A body whose slots hold whole fields. The key that a slot is found under and the name in its
field are kept apart. -/
structure FieldSlots where
  slots : OrderedMap NamedType
deriving DecidableEq

namespace FieldSlots

def empty : FieldSlots := ⟨.empty⟩

/-- An occupied slot gets another type, and keeps the name that its field has. -/
def insert (body : FieldSlots) (name type : String) : FieldSlots :=
  match body.slots.get? name with
  | some field => ⟨body.slots.insert name { field with type }⟩
  | none => ⟨body.slots.insert name ⟨name, type⟩⟩

def ofList (pairs : List (String × String)) : FieldSlots :=
  pairs.foldl (fun body pair => body.insert pair.1 pair.2) empty

def fields (body : FieldSlots) : List NamedType := body.slots.entries.map Prod.snd

/-- Each field with the name that is kept in it, not with its key. -/
def iter (body : FieldSlots) : List (String × String) :=
  body.fields.map fun field => (field.name, field.type)

def get? (body : FieldSlots) (name : String) : Option String :=
  (body.slots.get? name).map NamedType.type

def size (body : FieldSlots) : Nat := body.slots.size

/-- Bodies are compared by their fields in order; keys are not looked at. -/
def same (body body' : FieldSlots) : Bool :=
  body.size == body'.size && body.fields == body'.fields

def slot (entry : String × String) : String × NamedType := (entry.1, ⟨entry.1, entry.2⟩)

/-- The body with its fields in slots. -/
structure Holds (body : FieldSlots) (entries : Body) : Prop where
  entries_eq : body.slots.entries = entries.entries.map slot

theorem putEntry_slot (name type : String) (entries : List (String × String)) :
    putEntry name ⟨name, type⟩ (entries.map slot) = (putEntry name type entries).map slot := by
  induction entries with
  | nil => rfl
  | cons entry rest ih =>
    rw [List.map_cons, putEntry, putEntry]
    by_cases here : entry.1 = name
    · rw [if_pos here, if_pos (show (slot entry).1 = name from here)]
      rfl
    · rw [if_neg here, if_neg (show ¬(slot entry).1 = name from here), ih]
      rfl

theorem lookup_slot (name : String) (entries : List (String × String)) :
    (entries.map slot).lookup name = (entries.lookup name).map fun type => ⟨name, type⟩ := by
  induction entries with
  | nil => rfl
  | cons entry rest ih =>
    obtain ⟨key, type⟩ := entry
    rw [List.map_cons, slot, List.lookup_cons, List.lookup_cons]
    cases same : name == key with
    | true => rw [beq_iff_eq.1 same]; rfl
    | false => exact ih

namespace Holds

variable {body body' : FieldSlots} {entries entries' : Body}

theorem get?_slots (holds : body.Holds entries) (name : String) :
    body.slots.get? name = (entries.get? name).map fun type => ⟨name, type⟩ := by
  rw [OrderedMap.get?, holds.entries_eq]
  exact lookup_slot name entries.entries

theorem insert_eq (holds : body.Holds entries) (name type : String) :
    body.insert name type = ⟨body.slots.insert name ⟨name, type⟩⟩ := by
  have found := holds.get?_slots name
  unfold FieldSlots.insert
  cases value : entries.get? name with
  | none => rw [value] at found; rw [found]; rfl
  | some old => rw [value] at found; rw [found]; rfl

theorem insert (holds : body.Holds entries) (name type : String) :
    (body.insert name type).Holds (entries.insert name type) := by
  constructor
  rw [holds.insert_eq]
  change putEntry name _ body.slots.entries = _
  rw [holds.entries_eq]
  exact putEntry_slot name type entries.entries

theorem get?_eq (holds : body.Holds entries) (name : String) :
    body.get? name = entries.get? name := by
  rw [FieldSlots.get?, holds.get?_slots, Option.map_map]
  exact Option.map_id'

theorem iter_eq (holds : body.Holds entries) : body.iter = entries.entries := by
  rw [iter, fields, holds.entries_eq, List.map_map, List.map_map]
  exact List.map_id' _

theorem size_eq (holds : body.Holds entries) : body.size = entries.size := by
  rw [FieldSlots.size, OrderedMap.size, holds.entries_eq, List.length_map]
  rfl

theorem key_eq (holds : body.Holds entries) :
    ∀ entry ∈ body.slots.entries, entry.1 = entry.2.name := by
  rw [holds.entries_eq]
  exact List.forall_mem_map.2 fun entry _ => rfl

theorem same_iff (holds : body.Holds entries) (holds' : body'.Holds entries') :
    body.same body' = true ↔ entries = entries' := by
  rw [same, Bool.and_eq_true, beq_iff_eq, beq_iff_eq]
  constructor
  · intro ⟨_, fields⟩
    apply OrderedMap.ext
    rw [← holds.iter_eq, ← holds'.iter_eq, iter, iter, fields]
  · intro alike
    have slots : body.slots.entries = body'.slots.entries := by
      rw [holds.entries_eq, holds'.entries_eq, alike]
    rw [holds.size_eq, holds'.size_eq, fields, fields, slots, alike]
    exact ⟨rfl, rfl⟩

end Holds

theorem holds_ofList (pairs : List (String × String)) :
    (ofList pairs).Holds (OrderedMap.ofList pairs) := by
  induction pairs using List.reverseRecOn with
  | nil => exact ⟨rfl⟩
  | append_singleton pairs pair ih =>
    have last : ofList (pairs ++ [pair]) = (ofList pairs).insert pair.1 pair.2 := by
      rw [ofList, List.foldl_append]
      rfl
    rw [OrderedMap.ofList_concat, last]
    exact ih.insert pair.1 pair.2

end FieldSlots

/-- Every name that was inserted into a body has one slot, in the order of the first insertions,
with the type of its last one. Bodies are the same exactly if these orders and types are. -/
theorem fields_keep_first_place_and_last_type (pairs : List (String × String)) :
    let body := FieldSlots.ofList pairs
    let names := pairs.map Prod.fst
    body.Holds (OrderedMap.ofList pairs) ∧
    (body.iter.map Prod.fst = names.eraseDups ∧ (body.iter.map Prod.fst).Nodup) ∧
    (∀ field ∈ body.fields, pairs.reverse.lookup field.name = some field.type) ∧
    (∀ entry ∈ body.slots.entries, entry.1 = entry.2.name) ∧
    (∀ name, body.get? name = body.iter.lookup name ∧
      body.get? name = (OrderedMap.ofList pairs).get? name ∧
      (body.get? name = none ↔ name ∉ names)) ∧
    (body.size = names.toFinset.card ∧ body.size = (OrderedMap.ofList pairs).size) ∧
    (∀ name ∈ names, ∀ type, (body.insert name type).slots.entries =
      body.slots.entries.map fun entry =>
        if entry.1 = name then (entry.1, { entry.2 with type }) else entry) ∧
    ∀ pairs' : List (String × String),
      (body.same (FieldSlots.ofList pairs') = true ↔
        names.eraseDups = (pairs'.map Prod.fst).eraseDups ∧
          ∀ name, pairs.reverse.lookup name = pairs'.reverse.lookup name) ∧
      (body.same (FieldSlots.ofList pairs') = true ↔
        OrderedMap.ofList pairs = OrderedMap.ofList pairs') := by
  intro body names
  -- All that follows is read off the ordered map whose entries the slots hold.
  have holds : body.Holds (OrderedMap.ofList pairs) := FieldSlots.holds_ofList pairs
  have order : (OrderedMap.ofList pairs).keys = names.eraseDups := OrderedMap.keys_ofList pairs
  have inserted (name : String) : name ∈ (OrderedMap.ofList pairs).keys ↔ name ∈ names := by
    rw [order, List.mem_eraseDups]
  have iterated : body.iter.map Prod.fst = (OrderedMap.ofList pairs).keys := by
    rw [holds.iter_eq, OrderedMap.keys]
  have nodup : (OrderedMap.ofList pairs).keys.Nodup := (OrderedMap.ofList pairs).keys_nodup
  have same (pairs' : List (String × String)) : body.same (FieldSlots.ofList pairs') = true ↔
      OrderedMap.ofList pairs = OrderedMap.ofList pairs' :=
    holds.same_iff (FieldSlots.holds_ofList pairs')
  refine ⟨holds, ⟨iterated.trans order, iterated ▸ nodup⟩, fun field member => ?_, holds.key_eq,
    fun name => ⟨?_, holds.get?_eq name, ?_⟩, ⟨?_, holds.size_eq⟩, fun name known type => ?_,
    fun pairs' => ⟨?_, same pairs'⟩⟩
  · have shown : (field.name, field.type) ∈ body.iter :=
      List.mem_map.2 ⟨field, member, rfl⟩
    rw [holds.iter_eq] at shown
    rw [← OrderedMap.get?_ofList]
    exact OrderedMap.get?_of_mem shown
  · rw [holds.get?_eq, holds.iter_eq]
    rfl
  · rw [holds.get?_eq, OrderedMap.get?_eq_none_iff, inserted]
  · have distinct : names.toFinset = (OrderedMap.ofList pairs).keys.toFinset :=
      Finset.ext fun name => by rw [List.mem_toFinset, List.mem_toFinset, inserted]
    rw [holds.size_eq, distinct, List.toFinset_card_of_nodup nodup, OrderedMap.keys,
      List.length_map]
    rfl
  · have here : name ∈ body.slots.keys := by
      rw [OrderedMap.keys, holds.entries_eq, List.map_map]
      exact (inserted name).2 known
    rw [holds.insert_eq, OrderedMap.entries_insert_of_mem here]
    refine List.map_congr_left fun entry member => ?_
    have key := holds.key_eq entry member
    split
    · next same => rw [← same, key]
    · rfl
  · rw [same, OrderedMap.eq_iff_keys_get?, order, OrderedMap.keys_ofList]
    simp only [OrderedMap.get?_ofList]

/-- A name that is inserted twice, with another one between, and rows that differ in types that are
replaced or in which name comes first. -/
theorem fields_keep_first_place_and_last_type_of_repeated :
    let pairs := [("a", "int32"), ("b", "bool"), ("a", "int64")]
    let replaced := [("a", "bool"), ("b", "bool"), ("a", "int64")]
    let moved := [("b", "bool"), ("a", "int64")]
    let body := FieldSlots.ofList pairs
    body.iter = [("a", "int64"), ("b", "bool")] ∧ pairs.reverse.lookup "a" = some "int64" ∧
      ((body.insert "b" "uint8").slots.entries = body.slots.entries.map fun entry =>
        if entry.1 = "b" then (entry.1, { entry.2 with type := "uint8" }) else entry) ∧
      body.same (FieldSlots.ofList replaced) = true ∧
      ¬body.same (FieldSlots.ofList moved) = true := by
  intro pairs replaced moved body
  obtain ⟨_, _, types, _, _, _, again, alike⟩ := fields_keep_first_place_and_last_type pairs
  refine ⟨by decide, types ⟨"a", "int64"⟩ (by decide), again "b" (by decide) "uint8",
    (alike replaced).2.2 (OrderedMap.ext (by decide)), fun same => ?_⟩
  have order := ((alike moved).1.1 same).1
  exact absurd order (by decide)

end RpcSchema
