import ClassFormat.Proofs.Collecting
import Mathlib.Data.List.Basic
import Mathlib.Data.List.Induction

/-! What an attribute table keeps of the attributes that are written for it: the place of the first of
each name and the value of the last. -/
namespace ClassFormat

/-- A map that keeps its keys in the order in which they first came. A known key keeps its place and
gets the new value. -/
def Keyed.insert (key : String) (value : α) : List (String × α) → List (String × α)
  | [] => [(key, value)]
  | (known, old) :: rest =>
    if known = key then (known, value) :: rest else (known, old) :: insert key value rest

namespace Table

/-- The last attribute of the same name before the one at a place. -/
def previous? (written : List Attribute) (place : Nat) : Option Attribute :=
  written[place]?.bind fun later => (written.take place).findRev? (·.name = later.name)

/-- The attributes that are overwritten, in the order of those that overwrite them. -/
def overwritten (written : List Attribute) : List Attribute :=
  (List.range written.length).filterMap (previous? written)

/-- How a table relates to the attributes written for it, in their order in the file. -/
structure Keeps (held : Table) (written : List Attribute) : Prop where
  count : written.length = held.count.toNat
  /-- Names stand in the order in which they first appear. -/
  names : held.entries.map Attribute.name = (written.map Attribute.name).eraseDups
  last : ∀ name, held.get? name = written.findRev? (·.name = name)
  missing : ∀ name, held.get? name = none ↔ ∀ item ∈ written, item.name ≠ name
  /-- The keys of the map that the attributes are put into are their own names. -/
  keys : held.entries.map (fun item => (item.name, item)) =
    written.foldl (fun map item => Keyed.insert item.name item map) []
  size : held.size = (written.map Attribute.name).eraseDups.length
  size_le : held.size ≤ held.count.toNat
  size_eq : held.size = held.count.toNat ↔ (written.map Attribute.name).Nodup
  /-- As many are overwritten as are missing in the table. -/
  overwritten : (overwritten written).length = held.count.toNat - held.size

theorem collect_append (entries front back : List Attribute) :
    collect entries (front ++ back) = collect (collect entries front) back :=
  List.foldl_append

theorem find?_insert (later : Attribute) (entries : List Attribute) (name : String) :
    (insert later entries).find? (·.name = name) =
      if later.name = name then some later else entries.find? (·.name = name) := by
  induction entries with
  | nil => by_cases same : later.name = name <;> simp [insert, same]
  | cons earlier rest ih =>
    by_cases replaces : earlier.name = later.name
    · rw [insert, if_pos replaces]
      by_cases same : later.name = name <;> simp [replaces, same]
    · rw [insert, if_neg replaces, List.find?_cons, ih]
      by_cases here : earlier.name = name
      · have other : later.name ≠ name := fun same => replaces (here.trans same.symm)
        simp [here, other]
      · simp [here]

/-- Of the attributes of a name the last is found. -/
theorem find?_collect (entries written : List Attribute) (name : String) :
    (collect entries written).find? (·.name = name) =
      (written.findRev? (·.name = name)).or (entries.find? (·.name = name)) := by
  simp only [List.findRev?_eq_find?_reverse]
  induction written generalizing entries with
  | nil => rfl
  | cons later rest ih =>
    change (collect (insert later entries) rest).find? _ = _
    rw [ih, find?_insert, List.reverse_cons, List.find?_append, Option.or_assoc]
    by_cases same : later.name = name <;> simp [same]

theorem find?_collect_nil (written : List Attribute) (name : String) :
    (collect [] written).find? (·.name = name) = written.findRev? (·.name = name) := by
  rw [find?_collect, List.find?_nil, Option.or_none]

theorem eraseDups_concat (names : List String) (name : String) : (names ++ [name]).eraseDups =
    if name ∈ names then names.eraseDups else names.eraseDups ++ [name] := by
  rw [List.eraseDups_append]
  by_cases old : name ∈ names
  · simp [List.removeAll, old]
  · simp [List.removeAll, old, List.eraseDups_cons]

/-- Induction from the last attribute backwards, since the last is inserted last. -/
theorem names_collect (written : List Attribute) :
    (collect [] written).map Attribute.name = (written.map Attribute.name).eraseDups := by
  induction written using List.reverseRecOn with
  | nil => rfl
  | append_singleton front last ih =>
    rw [collect_append, List.map_append, List.map_singleton, eraseDups_concat, ← ih]
    change (insert last (collect [] front)).map Attribute.name = _
    by_cases old : last.name ∈ front.map Attribute.name
    · have listed : last.name ∈ (collect [] front).map Attribute.name := by
        rw [ih]
        exact List.mem_eraseDups.mpr old
      rw [if_pos old, names_insert_old listed]
    · have fresh : last.name ∉ (collect [] front).map Attribute.name := by
        rw [ih]
        exact fun listed => old (List.mem_eraseDups.mp listed)
      rw [if_neg old, insert_new fresh, List.map_append, List.map_singleton]

theorem keyed_insert (item : Attribute) (entries : List Attribute) :
    Keyed.insert item.name item (entries.map fun item => (item.name, item)) =
      (insert item entries).map fun item => (item.name, item) := by
  induction entries with
  | nil => rfl
  | cons earlier rest ih =>
    by_cases same : earlier.name = item.name
    · simp [Keyed.insert, insert, same]
    · simp [Keyed.insert, insert, same, ih]

theorem keyed_collect (entries written : List Attribute) :
    written.foldl (fun map item => Keyed.insert item.name item map)
        (entries.map fun item => (item.name, item)) =
      (collect entries written).map fun item => (item.name, item) := by
  induction written generalizing entries with
  | nil => rfl
  | cons item rest ih =>
    rw [List.foldl_cons, keyed_insert]
    exact ih (insert item entries)

/-- What comes later does not change what was overwritten before. -/
theorem previous?_append {front : List Attribute} (back : List Attribute) {place : Nat}
    (inside : place < front.length) : previous? (front ++ back) place = previous? front place := by
  rw [previous?, previous?, List.getElem?_append_left inside,
    List.take_append_of_le_length (Nat.le_of_lt inside)]

theorem previous?_at (front : List Attribute) (later : Attribute) (back : List Attribute) :
    previous? (front ++ later :: back) front.length = front.findRev? (·.name = later.name) := by
  simp [previous?]

theorem overwritten_append (front : List Attribute) (last : Attribute) :
    overwritten (front ++ [last]) =
      overwritten front ++ (front.findRev? (·.name = last.name)).toList := by
  have early : (List.range front.length).filterMap (previous? (front ++ [last])) = overwritten front := by
    refine List.filterMap_congr fun place member => ?_
    exact previous?_append [last] (List.mem_range.mp member)
  rw [overwritten, List.length_append, List.length_singleton, List.range_succ, List.filterMap_append,
    early, List.filterMap_cons, previous?_at]
  cases front.findRev? (·.name = last.name) <;> rfl

/-- An insertion either overwrites an attribute or adds one. -/
theorem length_insert (later : Attribute) (entries : List Attribute) :
    (insert later entries).length + (entries.find? (·.name = later.name)).toList.length =
      entries.length + 1 := by
  induction entries with
  | nil => rfl
  | cons earlier rest ih =>
    by_cases same : earlier.name = later.name
    · simp [insert, same]
    · simp [insert, same]
      omega

/-- Every attribute is either kept or overwritten in the end. -/
theorem length_overwritten (written : List Attribute) :
    (overwritten written).length + (collect [] written).length = written.length := by
  induction written using List.reverseRecOn with
  | nil => rfl
  | append_singleton front last ih =>
    have step := length_insert last (collect [] front)
    rw [find?_collect_nil] at step
    rw [overwritten_append, collect_append, List.length_append, List.length_append, List.length_singleton]
    change _ + (insert last (collect [] front)).length = _
    omega

theorem keeps_collect {held : Table} {written : List Attribute}
    (count : written.length = held.count.toNat) (kept : held.entries = collect [] written) :
    held.Keeps written where
  count := count
  names := by rw [kept, names_collect]
  last name := by rw [get?, kept, find?_collect_nil]
  missing name := by
    rw [get?, kept, find?_collect_nil, List.findRev?_eq_find?_reverse, List.find?_eq_none]
    simp
  keys := by
    rw [kept]
    exact (keyed_collect [] written).symm
  size := by rw [Table.size, kept, ← names_collect, List.length_map]
  size_le := by
    rw [← count, Table.size, kept]
    simpa using length_collect_le [] written
  size_eq := by
    rw [← count, Table.size, kept]
    constructor
    · intro all
      have whole : collect [] written = [] ++ written := collect_of_length (by simpa using all)
      have distinct : ((collect [] written).map Attribute.name).Nodup :=
        names_collect_nodup written List.nodup_nil
      rw [whole] at distinct
      exact distinct
    · intro distinct
      have whole : collect [] written = [] ++ written := collect_of_nodup [] (by simpa using distinct)
      rw [whole, List.nil_append]
  overwritten := by
    have total := length_overwritten written
    rw [← count, Table.size, kept]
    omega

end Table
end ClassFormat
