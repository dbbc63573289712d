import RadixStore.Tree.Basic

/-!
# Removing a key

When the leaf is gone, the node that held it must still be of the smallest kind that fits, and no
node but the root may be left with a single entry:

    a node of the smallest kind with two entries   collapses into the entry that remains
    a node whose children now fit the next kind    is rebuilt one kind smaller
    otherwise                                      the entry is erased where it stands

The root is neither collapsed nor rebuilt.
-/

namespace RadixStore

variable {V : Type}

namespace Branch

/-- Erase the leaf on `edge` and leave the node as it is otherwise. -/
def eraseInPlace (n : Inner V) (edge : Edge) (old : V) : Except Fault (Outcome V) := do
  let lock ← n.lock.writeSection
  .ok (.inPlace { n.erase edge with lock } (some old))

/-- The stem of `below` after its parent, reached at `depth` with a stem of `length` bytes, has
    collapsed into it: the stem of the parent, the byte of the edge, its own stem. The removed key
    shows the bytes of the parent's stem. -/
def mergedStem (below : Inner V) (key : Key) (depth length : Nat) (b : UInt8) : Stem :=
  .ofBytes (key.slice depth length ++ b :: below.stem.head) (length + 1 + below.stem.length)

/-- The node that takes the place of one that collapses into its child `c` on `edge`. -/
def survivor (n : Inner V) (key : Key) (depth : Nat) (edge : Edge) (c : Node V) :
    Except Fault (Node V) :=
  match edge, c with
  | .byte b, .inner m => do
    let lock ← m.lock.writeSection
    if depth + n.stem.length ≤ key.length then
      .ok (.inner { m with lock, stem := m.mergedStem key depth n.stem.length b })
    else .error .shortKey
  | _, c => .ok c

/-- Collapse a node, reached at `depth`, that loses the leaf on `edge`. -/
def collapse (n : Inner V) (key : Key) (depth : Nat) (edge : Edge) (old : V) :
    Except Fault (Outcome V) := do
  let lock ← n.lock.lastSection
  let change ←
    match n.entries.find? fun e => e.1 ≠ edge with
    | none => Except.ok .unlinked
    | some (e, c) => (n.survivor key depth e c).map .relinked
  .ok (.patched ⟨change, some old, some .collapse, some ⟨n.id, lock⟩⟩)

/-- Rebuild a node one kind smaller without its child under `b`. -/
def shrink (n : Inner V) (b : UInt8) (old : V) (id : NodeId) : Except Fault (Outcome V) := do
  let lock ← n.lock.lastSection
  let smaller ← n.rebuild n.kind.shrunk (some b) id
  .ok (.patched ⟨.relinked (.inner smaller), some old, some .shrink, some ⟨n.id, lock⟩⟩)

/-- Remove the leaf on `edge` of a node other than the root. -/
def unlink (n : Inner V) (key : Key) (depth : Nat) (edge : Edge) (old : V) (id : NodeId) :
    Except Fault (Outcome V) :=
  if n.kind = .node4 ∧ n.entryCount ≤ 2 then n.collapse key depth edge old
  else
    match edge with
    | .terminal => n.eraseInPlace edge old
    | .byte b =>
      if n.kind.shouldShrink (n.count - 1) then n.shrink b old id else n.eraseInPlace edge old

/-- Remove `key` below a node reached at `depth`. A node that has to be made gets `id`. -/
def remove (key : Key) (id : NodeId) (isRoot : Bool) (n : Inner V) (depth : Nat) :
    Except Fault (Outcome V) :=
  match n.lock.liveSnapshot with
  | .error e => .error e
  | .ok _ =>
    if n.stem.admits key depth then
      let edge := Edge.ofKey key (depth + n.stem.length)
      match _h : n.load (.ofKey key (depth + n.stem.length)) with
      | none => .ok (.unchanged none)
      | some (.leaf l) =>
        if l.key = key then
          if isRoot then n.eraseInPlace edge l.value else n.unlink key depth edge l.value id
        else .ok (.unchanged none)
      | some (.inner m) =>
        match remove key id false m (depth + n.stem.length + 1) with
        | .error e => .error e
        | .ok o => n.lift edge o
    else .ok (.unchanged none)
termination_by key.length - depth
decreasing_by
  have := lt_length_of_load _h
  omega

end Branch

namespace Tree

/-- One attempt to remove a key. -/
def tryRemove (t : Tree V) (key : Key) : Except Fault (Written V) := do
  t.settle (fun _ => t.size - 1) (← t.root.remove key t.nextId true 0)

/-- Remove `key`. -/
def remove (t : Tree V) (key : Key) : Written V :=
  t.conclude (t.tryRemove key)

end Tree

end RadixStore
