import RadixStore.Tree.Basic

/-!
# Storing a key

The descent follows the key as long as the tree does. Where it ends decides what is done and which
nodes are locked for it:

    free edge, room in the body    node           the leaf is put there
    free edge, body full           parent, node   the node is rebuilt one kind larger
    leaf with the same key         node           the leaf is exchanged, or left if so wished
    leaf with another key          node           a new node with both leaves takes its place
    stem that the key leaves       parent, node   a new node is put above the node
-/

namespace RadixStore

variable {V : Type}

/-- What to do about a key that is stored already. -/
inductive InsertMode where
  /-- Exchange its value. -/
  | upsert
  /-- Leave it alone and report its value. -/
  | ifAbsent
deriving DecidableEq, Repr

namespace Branch

/-- Put a new leaf on the free edge `edge`. A node whose body is full is rebuilt one kind larger;
    a full root has no free edge. -/
def addLeaf (n : Inner V) (edge : Edge) (l : Leaf V) (id : NodeId) : Except Fault (Outcome V) :=
  match edge, n.isFull with
  | .byte b, true => do
    let lock ← n.lock.lastSection
    let larger ← n.rebuild n.kind.grown none id
    let larger ← larger.insertChild b (.leaf l)
    .ok (.patched ⟨.relinked (.inner larger), none, some .grow, some ⟨n.id, lock⟩⟩)
  | edge, _ => do
    let lock ← n.lock.writeSection
    let n ← n.place edge l
    .ok (.inPlace { n with lock } none)

/-- Store `value` over the leaf `l` on `edge`, which holds the key already, if that is wished. -/
def insertOver (n : Inner V) (edge : Edge) (l : Leaf V) (value : V) :
    InsertMode → Except Fault (Outcome V)
  | .ifAbsent => .ok (.unchanged (some l.value))
  | .upsert => do
    let lock ← n.lock.writeSection
    .ok (.inPlace { n.replace edge (.leaf ⟨l.key, value⟩) with lock } (some l.value))

/-- Replace the leaf `old` on `edge`, below which `depth` bytes are used up, by a node that holds
    it and the new leaf `l`. -/
def splitLeaf (n : Inner V) (edge : Edge) (old l : Leaf V) (depth : Nat) (id : NodeId) :
    Except Fault (Outcome V) :=
  if depth ≤ l.key.length ∧ depth ≤ old.key.length then do
    let lock ← n.lock.writeSection
    let ours : Key := l.key.drop depth
    let common := Key.commonLength ours (old.key.drop depth)
    let fork : Inner V := .empty .node4 id (.ofBytes (ours.take common) common)
    let fork ← fork.place (.ofKey old.key (depth + common)) old
    let fork ← fork.place (.ofKey l.key (depth + common)) l
    .ok (.inPlace { n.replace edge (.inner fork) with lock } none)
  else .error .shortKey

/-- Put a node above `n`, reached at `depth`: it takes the first `common` bytes of the stem and
    holds the new leaf and, under the next byte of the stem, `n` with what is left of it. -/
def splitStem (n : Inner V) (l : Leaf V) (depth common : Nat) (stem : Key) (id : NodeId) :
    Except Fault (Outcome V) :=
  match stem.drop common with
  | [] => .error .shortKey
  | b :: rest => do
    let lock ← n.lock.writeSection
    let fork : Inner V := .empty .node4 id (.ofBytes (stem.take common) common)
    let fork ← fork.place (.ofKey l.key (depth + common)) l
    let fork ← fork.insertChild b (.inner { n with lock, stem := .ofBytes rest rest.length })
    .ok (.patched ⟨.relinked (.inner fork), none, some .stemSplit, none⟩)

/-- Store the leaf `l` below a node reached at `depth`. A node that has to be made gets `id`. -/
def insert (l : Leaf V) (mode : InsertMode) (id : NodeId) (n : Inner V) (depth : Nat) :
    Except Fault (Outcome V) :=
  match n.lock.liveSnapshot, n.fullStem depth with
  | .error e, _ => .error e
  | _, .error e => .error e
  | .ok _, .ok stem =>
    if l.key.length < depth then .error .shortKey
    else
      let common := Key.commonLength stem (l.key.drop depth)
      if common < stem.length then n.splitStem l depth common stem id
      else
        let edge := Edge.ofKey l.key (depth + stem.length)
        match _h : n.load (.ofKey l.key (depth + stem.length)) with
        | none => n.addLeaf edge l id
        | some (.leaf old) =>
          if old.key = l.key then n.insertOver edge old l.value mode
          else n.splitLeaf edge old l (depth + stem.length + 1) id
        | some (.inner m) =>
          match insert l mode id m (depth + stem.length + 1) with
          | .error e => .error e
          | .ok o => n.lift edge o
termination_by l.key.length - depth
decreasing_by
  have := lt_length_of_load _h
  omega

end Branch

namespace Tree

/-- The number of keys after an insertion that met the value `old`. -/
def sizeAfterInsert (t : Tree V) : Option V → Nat
  | none => t.size + 1
  | some _ => t.size

/-- One attempt to store a key. -/
def tryInsert (t : Tree V) (key : Key) (value : V) (mode : InsertMode) :
    Except Fault (Written V) := do
  t.settle t.sizeAfterInsert (← t.root.insert ⟨key, value⟩ mode t.nextId 0)

/-- Store `value` under `key`. -/
def insert (t : Tree V) (key : Key) (value : V) : Written V :=
  t.conclude (t.tryInsert key value .upsert)

/-- What `getOrInsert` comes to: the value stored then, and whether it was made for it. -/
structure Ensured (V : Type) where
  value : V
  made : Bool
  written : Written V

/-- The value of `key`; a key without one gets the value that `make` makes. -/
def getOrInsert (t : Tree V) (key : Key) (make : Unit → V) : Ensured V :=
  match t.get? key with
  | some found => ⟨found, false, ⟨t, some found, none, none, none⟩⟩
  | none =>
    let value := make ()
    let written := t.conclude (t.tryInsert key value .ifAbsent)
    ⟨written.old.getD value, true, written⟩

end Tree

end RadixStore
