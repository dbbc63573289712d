import RadixStore.Tree.Basic

/-!
# The shape of a tree

How many nodes of each kind a tree has, how many leaves, and how long its longest path is. The
length of a path is its number of nodes, so that the root alone has length one. Beside it stand the
entries of a tree, which is what the tree says as a map.
-/

namespace RadixStore

variable {V : Type}

/-- Node counts by kind, leaves, and the number of nodes on the longest path downwards. -/
structure Shape where
  node4 : Nat
  node16 : Nat
  node48 : Nat
  node256 : Nat
  leaves : Nat
  maxDepth : Nat
deriving DecidableEq, Repr

namespace Shape

/-- No node at all. -/
def zero : Shape := ⟨0, 0, 0, 0, 0, 0⟩

/-- A single leaf. -/
def leaf : Shape := ⟨0, 0, 0, 0, 1, 1⟩

/-- The number of inner nodes of a kind. -/
def count (s : Shape) : Kind → Nat
  | .node4 => s.node4
  | .node16 => s.node16
  | .node48 => s.node48
  | .node256 => s.node256

/-- What stands side by side: counts add up, the longer path counts. -/
def beside (s t : Shape) : Shape :=
  ⟨s.node4 + t.node4, s.node16 + t.node16, s.node48 + t.node48, s.node256 + t.node256,
    s.leaves + t.leaves, max s.maxDepth t.maxDepth⟩

/-- An inner node of kind `k` above what `s` counts. -/
def under (s : Shape) (k : Kind) : Shape :=
  let one (j : Kind) : Nat := if k = j then 1 else 0
  ⟨s.node4 + one .node4, s.node16 + one .node16, s.node48 + one .node48, s.node256 + one .node256,
    s.leaves, s.maxDepth + 1⟩

def text (s : Shape) : String :=
  Text.record "NodeStats"
    [("node4", toString s.node4), ("node16", toString s.node16), ("node48", toString s.node48),
     ("node256", toString s.node256), ("leaves", toString s.leaves),
     ("max_depth", toString s.maxDepth)]

end Shape

/-! ### Walking the whole tree -/

/-- The shape below and including a node. -/
def Node.shape : Node V → Shape
  | .leaf _ => .leaf
  | .inner n =>
    let terminal := if n.terminal.isSome then Shape.leaf else Shape.zero
    let children := n.body.toList.attach.map fun e => e.1.2.shape
    (children.foldr Shape.beside terminal).under n.kind
termination_by c => sizeOf c
decreasing_by
  have hlt := Body.sizeOf_lt_of_mem e.2
  obtain ⟨id, lock, stem, terminal, body⟩ := n
  simp only [Node.inner.sizeOf_spec, Branch.mk.sizeOf_spec] at hlt ⊢
  omega

/-- The leaves below and including a node, in key order. -/
def Node.leaves : Node V → List (Leaf V)
  | .leaf l => [l]
  | .inner n => n.terminal.toList ++ n.body.toList.attach.flatMap fun e => e.1.2.leaves
termination_by c => sizeOf c
decreasing_by
  have hlt := Body.sizeOf_lt_of_mem e.2
  obtain ⟨id, lock, stem, terminal, body⟩ := n
  simp only [Node.inner.sizeOf_spec, Branch.mk.sizeOf_spec] at hlt ⊢
  omega

/-- The shape of an inner node is made up of the shapes of its children. -/
theorem Node.shape_inner (n : Inner V) :
    (Node.inner n).shape =
      ((n.body.toList.map fun e => e.2.shape).foldr Shape.beside
        (if n.terminal.isSome then Shape.leaf else Shape.zero)).under n.kind := by
  rw [Node.shape]
  have h := List.attach_map_val (f := fun e : UInt8 × Node V => e.2.shape) (l := n.body.toList)
  simp only [h]

/-- The leaves below an inner node are its terminal and then the leaves of its children. -/
theorem Node.leaves_inner (n : Inner V) :
    (Node.inner n).leaves = n.terminal.toList ++ n.body.toList.flatMap fun e => e.2.leaves := by
  rw [Node.leaves, List.flatMap_def, List.flatMap_def]
  exact congrArg (fun ls => n.terminal.toList ++ List.flatten ls)
    (List.attach_map_val (f := fun e : UInt8 × Node V => e.2.leaves))

namespace Tree

/-- The shape of the whole tree, the root included. -/
def shape (t : Tree V) : Shape :=
  (Node.inner t.root).shape

/-- What the tree stores, in key order. -/
def leaves (t : Tree V) : List (Leaf V) :=
  (Node.inner t.root).leaves

/-- The tree as the map that it stands for, in key order. -/
def toList (t : Tree V) : List (Key × V) :=
  t.leaves.map fun l => (l.key, l.value)

/-! ### Texts -/

def text (t : Tree V) : String :=
  let root := Text.openRecord "Inner"
    [("kind", t.root.kind.text), ("count", toString t.root.count),
     ("prefix_len", toString t.root.stem.length), ("lock", t.root.lock.text)]
  Text.openRecord "Art" [("count", toString t.size), ("root", root)]

end Tree

end RadixStore
