import RadixStore.Cursor.Seek

/-!
# Stepping

A step looks for the next leaf from the deepest checkpoint upwards. A checkpoint whose entries are
used up is dropped. A checkpoint that no longer holds makes the cursor recover: it drops all that
do not hold and seeks anew, from the deepest one that does, for what comes after the key it yielded
last. Each recovery is counted.
-/

namespace RadixStore

variable {V : Type}

/-- A leaf that was found, and the checkpoints on the path to it. -/
structure Found (V : Type) where
  leaf : Leaf V
  stack : List Checkpoint

namespace Branch

/-- The first `depth` bytes of all keys below a node reached at that depth, read off its smallest
    leaf. -/
def pathTo (n : Inner V) (depth : Nat) : Key :=
  match n.minLeaf? with
  | none => []
  | some l => l.key.take depth

/-- The first leaf below a node after position `pos`. No node but the root is ever empty, so the
    first entry leads to it. -/
def firstLeaf? (dir : Direction) (n : Inner V) (path : Key) (seen : Snapshot) (pos : Int)
    (stack : List Checkpoint) : Option (Found V) :=
  match _h : n.entryPast dir pos with
  | none => none
  | some (p, .leaf l) => some ⟨l, ⟨n.id, path, seen, p⟩ :: stack⟩
  | some (p, .inner m) =>
    match m.lock.liveSnapshot with
    | .error _ => none
    | .ok seenBelow =>
      firstLeaf? dir m (m.pathTo (path.length + n.stem.length + 1)) seenBelow dir.start
        (⟨n.id, path, seen, p⟩ :: stack)
termination_by sizeOf n
decreasing_by exact sizeOf_lt_of_entryPast _h

end Branch

namespace Tree

/-- The first leaf after the checkpoints `fresh`, which were just made, with `stack` beneath. -/
def firstAfter? (t : Tree V) (dir : Direction) (stack : List Checkpoint) :
    List Checkpoint → Option (Found V)
  | [] => none
  | cp :: fresh =>
    match t.resolve cp with
    | .error _ => firstAfter? t dir stack fresh
    | .ok n =>
      match n.firstLeaf? dir cp.path cp.seen cp.pos (fresh ++ stack) with
      | some found => some found
      | none => firstAfter? t dir stack fresh

mutual

/-- The next leaf after the checkpoints of a cursor that has come up to `bound`, and how often it
    had to recover. -/
def advance (t : Tree V) (dir : Direction) (bound : Option Key) :
    List Checkpoint → Option (Found V) × Nat
  | [] => (none, 0)
  | cp :: stack =>
    match t.resolve cp with
    | .error _ =>
      let (found, recoveries) := recover t dir bound stack
      (found, recoveries + 1)
    | .ok n =>
      match n.firstLeaf? dir cp.path cp.seen cp.pos stack with
      | some found => (some found, 0)
      | none => advance t dir bound stack

/-- Seek anew from the deepest checkpoint that holds, or else from the root, and go on. -/
def recover (t : Tree V) (dir : Direction) (bound : Option Key) :
    List Checkpoint → Option (Found V) × Nat
  | [] =>
    match t.seek dir bound with
    | .error _ => (none, 0)
    | .ok fresh => (t.firstAfter? dir [] fresh, 0)
  | cp :: stack =>
    match t.resolve cp with
    | .error _ => recover t dir bound stack
    | .ok n =>
      match n.seekFrom dir bound cp.path cp.seen [] with
      | .error _ => recover t dir bound stack
      | .ok fresh =>
        match t.firstAfter? dir stack fresh with
        | some found => (some found, 0)
        | none => advance t dir bound stack

end

end Tree

namespace Cursor

/-- What a call for the next key comes to. -/
structure Step (V : Type) where
  item : Option (Leaf V)
  cursor : Cursor
  recoveries : Nat

/-- The checkpoints from which the next key is looked for; a cursor that has not set out yet seeks
    its way first. -/
def ready (c : Cursor) (t : Tree V) : Except Fault (List Checkpoint) :=
  if c.started then .ok c.stack else t.seek c.dir c.resumeBound

/-- The next key of the range. Once there is none there is none until the cursor is turned
    round. -/
def next (c : Cursor) (t : Tree V) : Step V :=
  if c.done then ⟨none, c, 0⟩
  else
    match c.ready t with
    | .error _ => ⟨none, c.finish, 1⟩
    | .ok stack =>
      match t.advance c.dir c.resumeBound stack with
      | (none, recoveries) => ⟨none, c.finish, recoveries⟩
      | (some found, recoveries) =>
        if c.isBeyond found.leaf.key then ⟨none, c.finish, recoveries⟩
        else
          ⟨some found.leaf,
            { c with stack := found.stack, last := some found.leaf.key, started := true },
            recoveries⟩

/-- The results of `count` calls for the next key. -/
def nexts (t : Tree V) : Nat → Cursor → List (Option (Leaf V)) × Cursor × Nat
  | 0, c => ([], c, 0)
  | count + 1, c =>
    let step := c.next t
    let (items, last, recoveries) := nexts t count step.cursor
    (step.item :: items, last, step.recoveries + recoveries)

/-- The next keys, at most `limit`, as long as there are any. -/
def collect (t : Tree V) : Nat → Cursor → List (Leaf V)
  | 0, _ => []
  | limit + 1, c =>
    let step := c.next t
    match step.item with
    | none => []
    | some l => l :: collect t limit step.cursor

end Cursor

/-- The keys of a range and their values, at most `limit`. A cursor yields every key once, so more
    than the size of the tree there are not. -/
def Tree.scan (t : Tree V) (lower upper : Option Key) (dir : Direction) (limit : Option Nat) :
    List (Leaf V) :=
  (Cursor.facing dir lower upper).collect t (limit.getD (t.size + 1))

end RadixStore
