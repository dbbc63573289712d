import RadixStore.Node.Edge
import RadixStore.Node.Slots

/-!
# Indexed bodies

A body of the third size has 48 slots for children, in no particular order, and reaches them
through an index with one place for every byte. A new child goes into the first free slot, so a
slot that was given up is used again.
-/

namespace RadixStore

/-- A byte index (256 places) into child slots (48 places), and how many slots are taken. -/
structure Indexed (α : Type) where
  count : Nat
  index : List (Option Nat)
  slots : List (Option α)
deriving DecidableEq, Repr

namespace Indexed

variable {α : Type}

def empty : Indexed α :=
  ⟨0, Slots.empty 256, Slots.empty 48⟩

/-- The slot that the index names for `b`. -/
def slot? (x : Indexed α) (b : UInt8) : Option Nat :=
  Slots.at? x.index b.toNat

/-- The child under `b`. -/
def child? (x : Indexed α) (b : UInt8) : Option α :=
  (x.slot? b).bind fun s => Slots.at? x.slots s

/-- The child under `b` together with its byte. -/
def entryAt? (x : Indexed α) (b : UInt8) : Option (UInt8 × α) :=
  (x.child? b).map fun c => (b, c)

/-- The first child at or after `b`. -/
def childFrom (x : Indexed α) (b : UInt8) : Option (UInt8 × α) :=
  (bytesFrom b).findSome? x.entryAt?

/-- The last child at or before `b`. -/
def childUpTo (x : Indexed α) (b : UInt8) : Option (UInt8 × α) :=
  (bytesUpTo b).findSome? x.entryAt?

/-- Add a child under a byte that has none; there is no room without a free slot. -/
def insert? (x : Indexed α) (b : UInt8) (c : α) : Option (Indexed α) :=
  (Slots.firstFree? x.slots).map fun s =>
    ⟨x.count + 1, Slots.put x.index b.toNat s, Slots.put x.slots s c⟩

/-- Exchange the child under `b`; without one nothing changes. -/
def replace (x : Indexed α) (b : UInt8) (c : α) : Indexed α :=
  match x.slot? b with
  | none => x
  | some s => { x with slots := Slots.put x.slots s c }

/-- Take the child under `b` out and free its slot. -/
def erase (x : Indexed α) (b : UInt8) : Indexed α :=
  match x.slot? b with
  | none => x
  | some s => ⟨x.count - 1, Slots.clear x.index b.toNat, Slots.clear x.slots s⟩

/-- The children, ascending. -/
def toList (x : Indexed α) : List (UInt8 × α) :=
  allBytes.filterMap x.entryAt?

/-! ### Everything found is in the list -/

theorem mem_of_childFrom {x : Indexed α} {b : UInt8} {p : UInt8 × α}
    (h : x.childFrom b = some p) : p ∈ x.toList := by
  obtain ⟨a, ha, hp⟩ := List.exists_of_findSome?_eq_some h
  exact List.mem_filterMap.2 ⟨a, List.mem_of_mem_drop ha, hp⟩

theorem mem_of_childUpTo {x : Indexed α} {b : UInt8} {p : UInt8 × α}
    (h : x.childUpTo b = some p) : p ∈ x.toList := by
  obtain ⟨a, ha, hp⟩ := List.exists_of_findSome?_eq_some h
  exact List.mem_filterMap.2 ⟨a, List.mem_of_mem_take (List.mem_reverse.1 ha), hp⟩

theorem sizeOf_lt_of_mem [SizeOf α] {x : Indexed α} {p : UInt8 × α} (h : p ∈ x.toList) :
    sizeOf p.2 < sizeOf x := by
  obtain ⟨b, _, hp⟩ := List.mem_filterMap.1 h
  obtain ⟨c, hc, rfl⟩ := Option.map_eq_some_iff.1 hp
  obtain ⟨s, _, hs⟩ := Option.bind_eq_some_iff.1 hc
  have hlt := Slots.sizeOf_lt_of_at? hs
  obtain ⟨n, index, slots⟩ := x
  simp only [Indexed.mk.sizeOf_spec] at hlt ⊢
  omega

end Indexed

end RadixStore
