import OsgiManager.Lib.Bytes

namespace OsgiManager.ESB

open OsgiManager.Lib

/-!
# Bundles and the bundle table

The records the monitor keeps about the bundles of the managed container, and the
`std::map<std::string, Bundle*>` that holds them under their names.  The map is a
`Std.TreeMap` ordered by the bytes of the name, so its iteration order is the map's own.

Every `Bundle` object is created by one parse and is reachable through one key of one map,
so the model stores the object in the map; a change made through the pointer is a change of
the map's entry.

* `Bundle.record` — what a listing says of a bundle, without the restart counter;
* `SameRecords` — two tables that tell the same about the same names.
-/

/-- A `Bundle` object.  `reStartCount` is the counter behind `incrementReStartCount`, which
    starts at zero. -/
structure Bundle where
  id : Bytes := []
  state : Bytes := []
  blueprint : Bytes := []
  spring : Bytes := []
  level : Bytes := []
  name : Bytes := []
  reStartCount : Nat := 0
deriving DecidableEq

/-- `incrementReStartCount()`. -/
def Bundle.incrementReStartCount (b : Bundle) : Bundle :=
  { b with reStartCount := b.reStartCount + 1 }

/-- The six columns of a bundle, with the counter masked. -/
def Bundle.record (b : Bundle) : Bundle := { b with reStartCount := 0 }

@[simp] theorem Bundle.record_incrementReStartCount (b : Bundle) :
    b.incrementReStartCount.record = b.record := rfl

/-- Equal records have equal columns. -/
theorem Bundle.columns_of_record {a b : Bundle} (h : a.record = b.record) :
    a.id = b.id ∧ a.state = b.state ∧ a.blueprint = b.blueprint ∧ a.spring = b.spring ∧
      a.level = b.level ∧ a.name = b.name := by
  cases a; cases b
  simpa [Bundle.record] using h

/-- `std::map<std::string, Bundle*>`. -/
abbrev BundleMap := Std.TreeMap Bytes Bundle compare

/-- What a table tells about a name: its record, if the name is in the table. -/
def BundleMap.record? (m : BundleMap) (name : Bytes) : Option Bundle := m[name]?.map Bundle.record

/-- Two tables agree: they have the same names and, for each name, the same id, state,
    blueprint, spring and level. -/
def SameRecords (m n : BundleMap) : Prop := ∀ name, m.record? name = n.record? name

namespace SameRecords

variable {l m n : BundleMap}

theorem refl (m : BundleMap) : SameRecords m m := fun _ => rfl

theorem symm (h : SameRecords m n) : SameRecords n m := fun name => (h name).symm

theorem trans (h : SameRecords l m) (h' : SameRecords m n) : SameRecords l n :=
  fun name => (h name).trans (h' name)

/-- Tables that agree have the same number of entries. -/
theorem size_eq (h : SameRecords m n) : m.size = n.size := by
  have key : ∀ t : BundleMap, (t.map fun _ b => b.record).size = t.size := fun t =>
    Std.TreeMap.size_map
  rw [← key m, ← key n]
  refine Std.TreeMap.Equiv.size_eq (Std.TreeMap.Equiv.of_forall_constGet?_eq fun name => ?_)
  rw [Std.TreeMap.getElem?_map, Std.TreeMap.getElem?_map]
  exact h name

/-- An entry of one table has a counterpart with the same columns in the other. -/
theorem exists_getElem? (h : SameRecords m n) {name : Bytes} {b : Bundle} (hb : m[name]? = some b) :
    ∃ b', n[name]? = some b' ∧ b'.record = b.record := by
  have hn := h name
  rw [BundleMap.record?, BundleMap.record?, hb, Option.map_some, eq_comm,
    Option.map_eq_some_iff] at hn
  exact hn

end SameRecords

/-- A table has no entries exactly when no name is in it. -/
theorem BundleMap.size_eq_zero_iff (m : BundleMap) :
    m.size = 0 ↔ ∀ name : Bytes, m[name]? = none := by
  have he := Std.TreeMap.isEmpty_eq_size_eq_zero (t := m)
  rw [← beq_iff_eq, ← he, Std.TreeMap.isEmpty_iff_forall_not_mem]
  exact forall_congr' fun name => by rw [Std.TreeMap.mem_iff_isSome_getElem?]; simp

end OsgiManager.ESB
