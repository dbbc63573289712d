import RadixStore.Tree.Basic

/-!
# Cursors

A cursor goes through the keys of a range in order and may be kept open while the tree changes
under it. It remembers the inner nodes on the path to where it stands as checkpoints: the node, the
key path that leads to it, the lock word it had when it was entered, and the position in it that
was visited last. A checkpoint holds as long as the node is still found there with the same lock
word; when it does not, the cursor finds its way again from the deepest checkpoint that does.

Going forward a cursor yields the keys above `lower` up to and including `upper`, ascending; going
backward those below `upper` down to and including `lower`, descending. Without a bound a side is
open.
-/

namespace RadixStore

variable {V : Type}

/-! ### Directions -/

/-- Which way a cursor goes. -/
inductive Direction where
  | forward
  | backward
deriving DecidableEq, Repr

namespace Direction

/-- The other way. -/
def flip : Direction → Direction
  | .forward => .backward
  | .backward => .forward

/-- The position before the first entry of a node. -/
def start : Direction → Int
  | .forward => beforeAll
  | .backward => afterAll

/-- Whether `key` comes after `bound`. -/
def isPast (dir : Direction) (bound key : Key) : Bool :=
  match dir with
  | .forward => bound < key
  | .backward => key < bound

end Direction

namespace Branch

/-- The first entry of a node after position `pos`. -/
def entryPast (n : Inner V) (dir : Direction) (pos : Int) : Option (Int × Node V) :=
  match dir with
  | .forward => n.nextEntry pos
  | .backward => n.prevEntry pos

theorem sizeOf_lt_of_entryPast {n m : Inner V} {dir : Direction} {pos p : Int}
    (h : n.entryPast dir pos = some (p, .inner m)) : sizeOf m < sizeOf n := by
  cases dir with
  | forward => exact sizeOf_lt_of_nextEntry h
  | backward => exact sizeOf_lt_of_prevEntry h

/-- The node called `id` on `path`, sought below a node reached at `depth`. -/
def find? (id : NodeId) (path : Key) (n : Inner V) (depth : Nat) : Option (Inner V) :=
  if depth = path.length then
    if n.id = id then some n else none
  else
    match _h : n.load (.ofKey path (depth + n.stem.length)) with
    | some (.inner m) => find? id path m (depth + n.stem.length + 1)
    | _ => none
termination_by path.length - depth
decreasing_by
  have := lt_length_of_load _h
  omega

end Branch

/-! ### Checkpoints -/

/-- An inner node that a cursor has entered. -/
structure Checkpoint where
  id : NodeId
  /-- The bytes that lead to the node; there are as many as the depth at which it was reached. -/
  path : Key
  seen : Snapshot
  /-- The position visited last. -/
  pos : Int
deriving DecidableEq, Repr

/-- The node of a checkpoint, as long as the checkpoint holds. For the checkpoints of an open cursor this
    is as good as looking at the lock word behind a pointer to the node, whether the node is still linked
    or not (`resolve_iff_validate`). -/
def Tree.resolve (t : Tree V) (cp : Checkpoint) : Except Fault (Inner V) :=
  match t.root.find? cp.id cp.path 0 with
  | none => .error .obsolete
  | some n => (n.lock.validate cp.seen).map fun _ => n

/-! ### Cursors -/

/-- A cursor; its checkpoints stand deepest first. -/
structure Cursor where
  lower : Option Key
  upper : Option Key
  dir : Direction
  stack : List Checkpoint
  /-- The key yielded last. -/
  last : Option Key
  started : Bool
  done : Bool
deriving DecidableEq, Repr

namespace Cursor

/-- A forward cursor that has not set out yet. -/
def between (lower upper : Option Key) : Cursor :=
  ⟨lower, upper, .forward, [], none, false, false⟩

/-- A cursor that is to go the given way. -/
def facing (dir : Direction) (lower upper : Option Key) : Cursor :=
  { between lower upper with dir }

/-- Turn round and begin anew from the other side. -/
def reverse (c : Cursor) : Cursor :=
  { c with dir := c.dir.flip, stack := [], last := none, started := false, done := false }

/-- The bound at the side where the cursor sets out. -/
def setOut (c : Cursor) : Option Key :=
  match c.dir with
  | .forward => c.lower
  | .backward => c.upper

/-- The bound at the side where the cursor stops. -/
def stop (c : Cursor) : Option Key :=
  match c.dir with
  | .forward => c.upper
  | .backward => c.lower

/-- The cursor goes on with the keys after this one: the last one it yielded, else the bound at
    which it set out. -/
def resumeBound (c : Cursor) : Option Key :=
  c.last <|> c.setOut

/-- Whether `key` lies beyond the range. -/
def isBeyond (c : Cursor) (key : Key) : Bool :=
  match c.stop with
  | none => false
  | some bound => c.dir.isPast bound key

/-- Nothing more to come until the cursor is turned round. -/
def finish (c : Cursor) : Cursor :=
  { c with stack := [], started := true, done := true }

/-- The fields that the text of a cursor shows. -/
def text (c : Cursor) : String :=
  Text.openRecord "Iter"
    [("start", Text.optionalBytes c.lower), ("end", Text.optionalBytes c.upper),
     ("forward", Text.flag (c.dir = .forward)), ("depth", toString c.stack.length),
     ("last", Text.optionalBytes c.last), ("done", Text.flag c.done)]

end Cursor

end RadixStore
