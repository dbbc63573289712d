import RadixStore.Node.Edge
import RadixStore.Node.Slots

/-!
# Direct bodies

A body of the largest size has a slot for every byte and counts the slots that are taken.
-/

namespace RadixStore

/-- 256 child slots, one for each byte. -/
structure Direct (α : Type) where
  count : Nat
  slots : List (Option α)
deriving DecidableEq, Repr

namespace Direct

variable {α : Type}

def empty : Direct α :=
  ⟨0, Slots.empty 256⟩

/-- The child under `b`. -/
def child? (d : Direct α) (b : UInt8) : Option α :=
  Slots.at? d.slots b.toNat

/-- The child under `b` together with its byte. -/
def entryAt? (d : Direct α) (b : UInt8) : Option (UInt8 × α) :=
  (d.child? b).map fun c => (b, c)

/-- The first child at or after `b`. -/
def childFrom (d : Direct α) (b : UInt8) : Option (UInt8 × α) :=
  (bytesFrom b).findSome? d.entryAt?

/-- The last child at or before `b`. -/
def childUpTo (d : Direct α) (b : UInt8) : Option (UInt8 × α) :=
  (bytesUpTo b).findSome? d.entryAt?

/-- Add a child under a byte that has none. -/
def insert (d : Direct α) (b : UInt8) (c : α) : Direct α :=
  ⟨d.count + 1, Slots.put d.slots b.toNat c⟩

/-- Exchange the child under `b`; without one nothing changes. -/
def replace (d : Direct α) (b : UInt8) (c : α) : Direct α :=
  match d.child? b with
  | none => d
  | some _ => { d with slots := Slots.put d.slots b.toNat c }

/-- Take the child under `b` out. -/
def erase (d : Direct α) (b : UInt8) : Direct α :=
  match d.child? b with
  | none => d
  | some _ => ⟨d.count - 1, Slots.clear d.slots b.toNat⟩

/-- The children, ascending. -/
def toList (d : Direct α) : List (UInt8 × α) :=
  allBytes.filterMap d.entryAt?

/-! ### Everything found is in the list -/

theorem mem_of_childFrom {d : Direct α} {b : UInt8} {p : UInt8 × α}
    (h : d.childFrom b = some p) : p ∈ d.toList := by
  obtain ⟨a, ha, hp⟩ := List.exists_of_findSome?_eq_some h
  exact List.mem_filterMap.2 ⟨a, List.mem_of_mem_drop ha, hp⟩

theorem mem_of_childUpTo {d : Direct α} {b : UInt8} {p : UInt8 × α}
    (h : d.childUpTo b = some p) : p ∈ d.toList := by
  obtain ⟨a, ha, hp⟩ := List.exists_of_findSome?_eq_some h
  exact List.mem_filterMap.2 ⟨a, List.mem_of_mem_take (List.mem_reverse.1 ha), hp⟩

theorem sizeOf_lt_of_mem [SizeOf α] {d : Direct α} {p : UInt8 × α} (h : p ∈ d.toList) :
    sizeOf p.2 < sizeOf d := by
  obtain ⟨b, _, hp⟩ := List.mem_filterMap.1 h
  obtain ⟨c, hc, rfl⟩ := Option.map_eq_some_iff.1 hp
  have hlt := Slots.sizeOf_lt_of_at? hc
  obtain ⟨n, slots⟩ := d
  simp only [Direct.mk.sizeOf_spec] at hlt ⊢
  omega

end Direct

end RadixStore
