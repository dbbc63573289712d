import RadixStore.Node.Edge

/-!
# Flat bodies

The children of a small node are a list sorted by byte, which is searched from one end. Few enough
children make that the cheapest way.
-/

namespace RadixStore

/-- Children in ascending order of their bytes. -/
structure Flat (α : Type) where
  entries : List (UInt8 × α)
deriving DecidableEq, Repr

namespace Flat

variable {α : Type}

def empty : Flat α := ⟨[]⟩

def count (f : Flat α) : Nat :=
  f.entries.length

/-- The child under `b`. -/
def child? (f : Flat α) (b : UInt8) : Option α :=
  (f.entries.find? fun e => e.1 = b).map Prod.snd

/-- The first child at or after `b`. -/
def childFrom (f : Flat α) (b : UInt8) : Option (UInt8 × α) :=
  f.entries.find? fun e => b ≤ e.1

/-- The last child at or before `b`. -/
def childUpTo (f : Flat α) (b : UInt8) : Option (UInt8 × α) :=
  f.entries.reverse.find? fun e => e.1 ≤ b

/-- Put a child in front of the first one with a greater byte. -/
def insertSorted (b : UInt8) (c : α) : List (UInt8 × α) → List (UInt8 × α)
  | [] => [(b, c)]
  | e :: es => if b < e.1 then (b, c) :: e :: es else e :: insertSorted b c es

/-- Add a child under a byte that has none. -/
def insert (f : Flat α) (b : UInt8) (c : α) : Flat α :=
  ⟨insertSorted b c f.entries⟩

/-- Exchange the child under `b`; without one nothing changes. -/
def replace (f : Flat α) (b : UInt8) (c : α) : Flat α :=
  ⟨f.entries.map fun e => if e.1 = b then (b, c) else e⟩

/-- Take the child under `b` out. -/
def erase (f : Flat α) (b : UInt8) : Flat α :=
  ⟨f.entries.filter fun e => e.1 ≠ b⟩

/-- The children, ascending. -/
def toList (f : Flat α) : List (UInt8 × α) :=
  f.entries

/-! ### Everything found is in the list -/

theorem mem_of_childFrom {f : Flat α} {b : UInt8} {p : UInt8 × α} (h : f.childFrom b = some p) :
    p ∈ f.toList :=
  List.mem_of_find?_eq_some h

theorem mem_of_childUpTo {f : Flat α} {b : UInt8} {p : UInt8 × α} (h : f.childUpTo b = some p) :
    p ∈ f.toList :=
  List.mem_reverse.1 (List.mem_of_find?_eq_some h)

theorem sizeOf_lt_of_mem [SizeOf α] {f : Flat α} {p : UInt8 × α} (h : p ∈ f.toList) :
    sizeOf p.2 < sizeOf f := by
  have hp := List.sizeOf_lt_of_mem h
  obtain ⟨b, c⟩ := p
  obtain ⟨es⟩ := f
  simp only [toList, Prod.mk.sizeOf_spec, Flat.mk.sizeOf_spec] at hp ⊢
  omega

end Flat

end RadixStore
