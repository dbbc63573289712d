import RadixStore.Node.Basic

/-!
# The tree

The tree is an ordered map from keys to values. Its root is a permanent node of the largest kind
with an empty stem; it is never replaced, so every other node has a parent that can relink it.

An operation is an attempt that descends from the root, takes a snapshot of the lock of every
node it passes, and locks the nodes whose fields it writes. An attempt that fails changes
nothing. The module holds what all operations share: looking a key up, and what an attempt to
change the tree makes of the nodes on its way.
-/

namespace RadixStore

variable {V : Type}

/-- A tree: its root, the number of its keys, and the identity that the next new node gets. -/
structure Tree (V : Type) where
  root : Inner V
  size : Nat
  nextId : NodeId

namespace Tree

/-- The tree without keys. -/
def empty : Tree V :=
  ⟨.empty .node256 0 .empty, 0, 1⟩

def isEmpty (t : Tree V) : Bool :=
  t.size == 0

end Tree

/-! ### Looking a key up -/

namespace Branch

theorem lt_length_of_load {n m : Inner V} {key : Key} {depth : Nat}
    (h : n.load (.ofKey key depth) = some (.inner m)) : depth < key.length := by
  cases he : Edge.ofKey key depth with
  | terminal =>
    rw [he] at h
    cases ht : n.terminal <;> simp [load, ht] at h
  | byte b => exact Edge.lt_length_of_ofKey he

/-- Look `key` up below a node reached at `depth`. The bytes of a stem that are not kept are
    skipped; the comparison with the whole key of the leaf makes up for it. -/
def search (key : Key) (n : Inner V) (depth : Nat) : Except Fault (Option V) :=
  match n.lock.liveSnapshot with
  | .error e => .error e
  | .ok _ =>
    if n.stem.admits key depth then
      match _h : n.load (.ofKey key (depth + n.stem.length)) with
      | none => .ok none
      | some (.leaf l) => .ok (if l.key = key then some l.value else none)
      | some (.inner m) => search key m (depth + n.stem.length + 1)
    else .ok none
termination_by key.length - depth
decreasing_by
  have := lt_length_of_load _h
  omega

end Branch

namespace Tree

/-- One attempt to look `key` up. -/
def trySearch (t : Tree V) (key : Key) : Except Fault (Option V) :=
  t.root.search key 0

/-- Why an attempt to look `key` up comes to nothing, if it does. -/
def searchFault? (t : Tree V) (key : Key) : Option Fault :=
  match t.trySearch key with
  | .ok _ => none
  | .error e => some e

/-- The value stored under `key`. -/
def get? (t : Tree V) (key : Key) : Option V :=
  match t.trySearch key with
  | .ok found => found
  | .error _ => none

end Tree

/-! ### Changing the value of a key where it stands

This takes no lock and changes no node but the leaf. -/

/-- The leaf with `f` applied to its value. -/
def Leaf.update (l : Leaf V) (f : V → V) : Leaf V :=
  { l with value := f l.value }

/-- Apply `f` to the value of `key` below a node reached at `depth`. -/
def Branch.update (key : Key) (f : V → V) (n : Inner V) (depth : Nat) : Inner V :=
  let edge := Edge.ofKey key (depth + n.stem.length)
  match _h : n.load (.ofKey key (depth + n.stem.length)) with
  | none => n
  | some (.leaf l) => if l.key = key then n.replace edge (.leaf (l.update f)) else n
  | some (.inner m) => n.replace edge (.inner (update key f m (depth + n.stem.length + 1)))
termination_by key.length - depth
decreasing_by
  have := Branch.lt_length_of_load _h
  omega

/-- Apply `f` to the value of `key`; without one nothing changes. -/
def Tree.update (t : Tree V) (key : Key) (f : V → V) : Tree V :=
  { t with root := t.root.update key f 0 }

/-! ### What an attempt does to the nodes on its way -/

/-- How an attempt changes the node that a slot of its parent holds. -/
inductive Change (V : Type) where
  /-- The same node, changed itself or further below. Its parent stays unlocked. -/
  | inPlace (n : Inner V)
  /-- Another node takes the slot, in a write section of the parent. -/
  | relinked (c : Node V)
  /-- The slot is given up, in a write section of the parent. -/
  | unlinked

/-- The ways in which the structure of the tree is rearranged, as far as they are counted. -/
inductive Reshape where
  /-- A node is replaced by one of the next larger kind. -/
  | grow
  /-- A node is replaced by one of the next smaller kind. -/
  | shrink
  /-- A node is replaced by the only child left to it. -/
  | collapse
  /-- A node is put above another one whose stem a new key leaves half way. -/
  | stemSplit
deriving DecidableEq, Repr

/-- A node that was unlinked, and its lock afterwards. -/
structure Retired where
  id : NodeId
  lock : VersionLock
deriving DecidableEq, Repr

/-- A change that an attempt has arrived at: what becomes of the node, the value that the key had,
    and what was rearranged and unlinked. -/
structure Patch (V : Type) where
  change : Change V
  old : Option V
  reshape : Option Reshape
  retired : Option Retired

/-- What an attempt comes to below some node. -/
inductive Outcome (V : Type) where
  /-- Nothing is to be changed; the value of the key, if it has one. -/
  | unchanged (found : Option V)
  | patched (p : Patch V)

/-- A change in place that rearranges nothing. -/
def Outcome.inPlace (n : Inner V) (old : Option V) : Outcome V :=
  .patched ⟨.inPlace n, old, none, none⟩

namespace Branch

/-- The node after a change to its child on `edge`. -/
def absorb (n : Inner V) (edge : Edge) : Change V → Except Fault (Inner V)
  | .inPlace m => .ok (n.replace edge (.inner m))
  | .relinked c => n.lock.writeSection.map fun lock => { n.replace edge c with lock }
  | .unlinked => n.lock.writeSection.map fun lock => { n.erase edge with lock }

/-- The outcome at the node, given the one at its child on `edge`. -/
def lift (n : Inner V) (edge : Edge) : Outcome V → Except Fault (Outcome V)
  | .unchanged found => .ok (.unchanged found)
  | .patched p => (n.absorb edge p.change).map fun m => .patched { p with change := .inPlace m }

end Branch

/-! ### What an operation leaves behind -/

/-- The tree after an operation, with the value that the key had before, what was rearranged and
    what was unlinked. A `fault` says why the operation came to nothing. -/
structure Written (V : Type) where
  tree : Tree V
  old : Option V
  reshape : Option Reshape
  retired : Option Retired
  fault : Option Fault

namespace Tree

/-- The outcome at the root applied to the tree; `size` is the number of keys then. The root stays
    in its place, so an outcome that would replace it is a fault. -/
def settle (t : Tree V) (size : Option V → Nat) : Outcome V → Except Fault (Written V)
  | .unchanged found => .ok ⟨t, found, none, none, none⟩
  | .patched p =>
    match p.change with
    | .inPlace root =>
      let tree : Tree V := ⟨root, size p.old, t.nextId + 1⟩
      .ok ⟨tree, p.old, p.reshape, p.retired, none⟩
    | _ => .error .rootless

/-- What an operation leaves behind when its attempt ends this way. -/
def conclude (t : Tree V) : Except Fault (Written V) → Written V
  | .ok w => w
  | .error e => ⟨t, none, none, none, some e⟩

end Tree

end RadixStore
