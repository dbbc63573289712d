import RadixStore.Lock.Basic
import RadixStore.Node.Body
import RadixStore.Node.Stem

/-!
# Nodes

A leaf of the tree holds a whole key and its value. An inner node holds a lock, a stem, the leaf
whose key ends at the node, if there is one, and a body with the other children.

An inner node reached at depth `d` whose stem has length `p` covers bytes `d` to `d + p` of the
keys below it: its terminal has a key of length `d + p`, and the child for byte `key[d + p]` is
reached at depth `d + p + 1`.

Every inner node has an identity. A node that is rebuilt in another size, or put between others,
is a new one; a node that only changes its stem or its children stays the same.
-/

namespace RadixStore

/-- The identity of an inner node. -/
abbrev NodeId := Nat

/-- A key and its value. -/
structure Leaf (V : Type) where
  key : Key
  value : V
deriving DecidableEq, Repr

/-- An inner node with children in `α`. -/
structure Branch (V α : Type) where
  id : NodeId
  lock : VersionLock
  stem : Stem
  terminal : Option (Leaf V)
  body : Body α
deriving DecidableEq, Repr

/-- A node of the tree. -/
inductive Node (V : Type) where
  | leaf (l : Leaf V)
  | inner (n : Branch V (Node V))

/-- An inner node of the tree. -/
abbrev Inner (V : Type) := Branch V (Node V)

namespace Branch

variable {V α : Type}

/-- A node without children on which no write section has begun yet. -/
def empty (kind : Kind) (id : NodeId) (stem : Stem) : Branch V α :=
  ⟨id, .fresh, stem, none, .empty kind⟩

def kind (n : Branch V α) : Kind :=
  n.body.kind

/-- The number of children, the terminal not counted. -/
def count (n : Branch V α) : Nat :=
  n.body.count

/-- The number of children, the terminal counted. -/
def entryCount (n : Branch V α) : Nat :=
  n.count + (if n.terminal.isSome then 1 else 0)

def isFull (n : Branch V α) : Bool :=
  n.body.isFull

/-! ### Looking at the children -/

/-- The child on an edge. -/
def load (n : Inner V) : Edge → Option (Node V)
  | .terminal => n.terminal.map .leaf
  | .byte b => n.body.child? b

/-- All children with their edges, in key order. -/
def entries (n : Inner V) : List (Edge × Node V) :=
  (n.terminal.map fun l => (Edge.terminal, Node.leaf l)).toList
    ++ n.body.toList.map fun e => (Edge.byte e.1, e.2)

/-- A child found in the body, with its position. -/
def atPosition (e : UInt8 × Node V) : Int × Node V :=
  ((Edge.byte e.1).position, e.2)

/-- The first child in the body at a position above `after`. -/
def childAfter (n : Inner V) (after : Int) : Option (Int × Node V) :=
  if after ≤ 255 then (n.body.childFrom (UInt8.ofNat after.toNat)).map atPosition else none

/-- The last child in the body at a position below `before`. -/
def childBefore (n : Inner V) (before : Int) : Option (Int × Node V) :=
  if 2 ≤ before then (n.body.childUpTo (UInt8.ofNat (min (before - 2) 255).toNat)).map atPosition
  else none

/-- The first child at a position above `after`. -/
def nextEntry (n : Inner V) (after : Int) : Option (Int × Node V) :=
  match n.terminal with
  | some l => if after < 0 then some (0, .leaf l) else n.childAfter after
  | none => n.childAfter after

/-- The last child at a position below `before`. -/
def prevEntry (n : Inner V) (before : Int) : Option (Int × Node V) :=
  match n.childBefore before with
  | some e => some e
  | none =>
    match n.terminal with
    | some l => if 0 < before then some (0, .leaf l) else none
    | none => none

/-! ### Changing the children

These only compute the changed node; its lock word stays the same. -/

/-- Add a child under a byte that has none. -/
def insertChild (n : Inner V) (b : UInt8) (c : Node V) : Except Fault (Inner V) :=
  match n.body.insert? b c with
  | none => .error .full
  | some body => .ok { n with body }

/-- Put a leaf on an edge that is free. -/
def place (n : Inner V) (edge : Edge) (l : Leaf V) : Except Fault (Inner V) :=
  match edge with
  | .terminal => .ok { n with terminal := some l }
  | .byte b => n.insertChild b (.leaf l)

/-- Exchange the child on an edge. A byte without a child stays without, and only a leaf can be
    the terminal. -/
def replace (n : Inner V) (edge : Edge) (c : Node V) : Inner V :=
  match edge, c with
  | .terminal, .leaf l => { n with terminal := some l }
  | .terminal, .inner _ => n
  | .byte b, c => { n with body := n.body.replace b c }

/-- Take the child on an edge out. -/
def erase (n : Inner V) : Edge → Inner V
  | .terminal => { n with terminal := none }
  | .byte b => { n with body := n.body.erase b }

/-- A new node of another kind with the same stem, terminal and children, the child under `skip`
    left out. -/
def rebuild (n : Inner V) (kind : Kind) (skip : Option UInt8) (id : NodeId) :
    Except Fault (Inner V) :=
  match (Body.empty kind).insertAll? (n.body.toList.filter fun e => some e.1 ≠ skip) with
  | none => .error .full
  | some body => .ok ⟨id, .fresh, .ofBytes n.stem.head n.stem.length, n.terminal, body⟩

/-! ### Inner children are smaller -/

theorem sizeOf_lt_of_mem_body {n m : Inner V} {b : UInt8} (h : (b, .inner m) ∈ n.body.toList) :
    sizeOf m < sizeOf n := by
  have hlt := Body.sizeOf_lt_of_mem h
  obtain ⟨id, lock, stem, terminal, body⟩ := n
  simp only [Node.inner.sizeOf_spec, Branch.mk.sizeOf_spec] at hlt ⊢
  omega

theorem sizeOf_lt_of_entry {n m : Inner V} {edge : Edge} (h : (edge, .inner m) ∈ n.entries) :
    sizeOf m < sizeOf n := by
  simp only [entries, List.mem_append, Option.mem_toList, Option.map_eq_some_iff, List.mem_map,
    Prod.mk.injEq, reduceCtorEq, and_false, exists_false, false_or] at h
  obtain ⟨⟨b, c⟩, hmem, -, rfl⟩ := h
  exact sizeOf_lt_of_mem_body hmem

theorem mem_of_atPosition {o : Option (UInt8 × Node V)} {m : Inner V} {p : Int} {n : Inner V}
    (hmem : ∀ e, o = some e → e ∈ n.body.toList) (h : o.map atPosition = some (p, .inner m)) :
    ∃ b, (b, .inner m) ∈ n.body.toList := by
  obtain ⟨⟨b, c⟩, he, hp⟩ := Option.map_eq_some_iff.1 h
  cases hp
  exact ⟨b, hmem _ he⟩

theorem mem_of_childAfter {n m : Inner V} {after p : Int}
    (h : n.childAfter after = some (p, .inner m)) : ∃ b, (b, .inner m) ∈ n.body.toList := by
  unfold childAfter at h
  split at h
  · exact mem_of_atPosition (fun _ => Body.mem_of_childFrom) h
  · simp at h

theorem mem_of_childBefore {n m : Inner V} {before p : Int}
    (h : n.childBefore before = some (p, .inner m)) : ∃ b, (b, .inner m) ∈ n.body.toList := by
  unfold childBefore at h
  split at h
  · exact mem_of_atPosition (fun _ => Body.mem_of_childUpTo) h
  · simp at h

theorem mem_of_nextEntry {n m : Inner V} {after p : Int}
    (h : n.nextEntry after = some (p, .inner m)) : ∃ b, (b, .inner m) ∈ n.body.toList := by
  unfold nextEntry at h
  split at h
  · split at h
    · simp at h
    · exact mem_of_childAfter h
  · exact mem_of_childAfter h

theorem mem_of_prevEntry {n m : Inner V} {before p : Int}
    (h : n.prevEntry before = some (p, .inner m)) : ∃ b, (b, .inner m) ∈ n.body.toList := by
  unfold prevEntry at h
  split at h
  · rename_i e he
    exact mem_of_childBefore (he.trans h)
  · split at h
    · split at h <;> simp at h
    · simp at h

theorem sizeOf_lt_of_nextEntry {n m : Inner V} {after p : Int}
    (h : n.nextEntry after = some (p, .inner m)) : sizeOf m < sizeOf n :=
  (mem_of_nextEntry h).elim fun _ => sizeOf_lt_of_mem_body

theorem sizeOf_lt_of_prevEntry {n m : Inner V} {before p : Int}
    (h : n.prevEntry before = some (p, .inner m)) : sizeOf m < sizeOf n :=
  (mem_of_prevEntry h).elim fun _ => sizeOf_lt_of_mem_body

/-! ### The smallest leaf and the whole stem -/

/-- The leaf with the smallest key below a node. -/
def minLeaf? (n : Inner V) : Option (Leaf V) :=
  match _h : n.nextEntry beforeAll with
  | none => none
  | some (_, .leaf l) => some l
  | some (_, .inner m) => m.minLeaf?
termination_by sizeOf n
decreasing_by exact sizeOf_lt_of_nextEntry _h

/-- All bytes of the stem of a node reached at `depth`. Those that are not kept are read off the
    smallest leaf, as all keys below the node agree on them. -/
def fullStem (n : Inner V) (depth : Nat) : Except Fault Key :=
  if n.stem.length ≤ maxStemHead then .ok n.stem.head
  else
    match n.minLeaf? with
    | none => .error .childless
    | some l =>
      if depth + n.stem.length ≤ l.key.length then .ok (l.key.slice depth n.stem.length)
      else .error .shortKey

end Branch

end RadixStore
