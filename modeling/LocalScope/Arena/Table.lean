import LocalScope.Code.Id
import Std.Data.TreeMap

namespace LocalScope

/- A table only ever grows, so a key once handed out stays good. -/
structure Table (κ β : Type) where
  rows : Array β := #[]

namespace Table

variable {κ β : Type} [Key κ]

def size (t : Table κ β) : Nat := t.rows.size

def isEmpty (t : Table κ β) : Bool := t.rows.isEmpty

def push (t : Table κ β) (row : β) : κ × Table κ β :=
  (Key.ofIndex t.rows.size, ⟨t.rows.push row⟩)

def get? (t : Table κ β) (k : κ) : Option β := t.rows[Key.index k]?

/-- Overwrites a row; a key without a row changes nothing. -/
def set (t : Table κ β) (k : κ) (row : β) : Table κ β :=
  ⟨t.rows.setIfInBounds (Key.index k) row⟩

def keys (t : Table κ β) : List κ := (List.range t.rows.size).map Key.ofIndex

def toList (t : Table κ β) : List (κ × β) := t.keys.zip t.rows.toList

def ofList (rows : List β) : Table κ β := ⟨rows.toArray⟩

theorem size_push (t : Table κ β) (row : β) : (t.push row).2.size = t.size + 1 := by
  simp [push, size]

theorem size_set (t : Table κ β) (k : κ) (row : β) : (t.set k row).size = t.size := by
  simp [set, size]

/- Here the key handed out is the size as it was, whereas 32-bit keys come round again. -/
theorem get?_push (t : Table NodeId β) (row : β) (k : NodeId) :
    (t.push row).2.get? k = if k = ⟨t.size⟩ then some row else t.get? k := by
  cases k
  simp [push, get?, size, Key.index, Array.getElem?_push]

theorem get?_set [DecidableEq κ] (t : Table κ β) (k j : κ) (row : β) :
    (t.set k row).get? j = if k = j ∧ Key.index k < t.size then some row else t.get? j := by
  simp only [set, get?, size, Array.getElem?_setIfInBounds]
  by_cases same : k = j
  · subst same
    by_cases held : Key.index k < t.rows.size <;> simp [held]
  · have apart : Key.index k ≠ Key.index j := fun h => same (Key.index_injective k j h)
    simp [same, apart]

end Table

/-- Entries for some of the keys of a table, in no relation to the table's size. -/
structure SideTable (κ β : Type) where
  entries : Std.TreeMap Nat β := {}

namespace SideTable

variable {κ β : Type} [Key κ]

def get? (t : SideTable κ β) (k : κ) : Option β := t.entries[Key.index k]?

def insert (t : SideTable κ β) (k : κ) (entry : β) : SideTable κ β :=
  ⟨t.entries.insert (Key.index k) entry⟩

def erase (t : SideTable κ β) (k : κ) : SideTable κ β := ⟨t.entries.erase (Key.index k)⟩

theorem get?_insert [DecidableEq κ] (t : SideTable κ β) (k j : κ) (entry : β) :
    (t.insert k entry).get? j = if k = j then some entry else t.get? j := by
  have same : Key.index k = Key.index j ↔ k = j :=
    ⟨Key.index_injective k j, fun h => h ▸ rfl⟩
  simp [insert, get?, Std.TreeMap.getElem?_insert, same]

theorem get?_erase [DecidableEq κ] (t : SideTable κ β) (k j : κ) :
    (t.erase k).get? j = if k = j then none else t.get? j := by
  have same : Key.index k = Key.index j ↔ k = j :=
    ⟨Key.index_injective k j, fun h => h ▸ rfl⟩
  simp [erase, get?, Std.TreeMap.getElem?_erase, same]

end SideTable

end LocalScope
