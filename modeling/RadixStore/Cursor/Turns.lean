import RadixStore.Cursor.Next

/-!
# Turn by turn

A call for the next key is a loop that looks at one checkpoint in each turn. Going on, it looks at the
deepest one: it drops it when its entries are used up, comes to a leaf, or goes down to an inner
node, which becomes the deepest. When the checkpoint no longer holds it begins to recover: it
throws checkpoints away until one holds and seeks anew from there. When none is left it seeks from
the root, again and again until that succeeds. Nothing in the loop itself says that it ends.
-/

namespace RadixStore

variable {V : Type}

/-- A checkpoint in the hands of a call. -/
structure Entry where
  checkpoint : Checkpoint
  /-- The key yielded last lies below the node. A node that the call has gone down to comes after
      that key as a whole, and needs no seeking when the call comes back to it. -/
  onPath : Bool
deriving DecidableEq, Repr

namespace Entry

/-- A checkpoint on the way to the key yielded last. -/
def settled (cp : Checkpoint) : Entry :=
  ⟨cp, true⟩

/-- A node that is gone down to, at which nothing has been visited. -/
def unvisited (dir : Direction) (id : NodeId) (path : Key) (seen : Snapshot) : Entry :=
  ⟨⟨id, path, seen, dir.start⟩, false⟩

/-- The same checkpoint after the entry at `pos` was visited. -/
def moveTo (e : Entry) (pos : Int) : Entry :=
  { e with checkpoint := { e.checkpoint with pos } }

end Entry

/-- What a call is about to do. -/
inductive Phase (V : Type) where
  /-- Go on from the deepest checkpoint. -/
  | going (stack : List Entry)
  /-- Find the deepest checkpoint that holds. -/
  | recovering (stack : List Entry)
  /-- Seek from the root. -/
  | seeking
  /-- Nothing more; a leaf was found, or none. -/
  | over (found : Option (Found V))

namespace Tree

/-- One turn of a call that has come up to `bound`; the recoveries are counted as they begin. -/
def turn (t : Tree V) (dir : Direction) (bound : Option Key) : Phase V × Nat → Phase V × Nat
  | (.going [], recoveries) => (.over none, recoveries)
  | (.going (e :: stack), recoveries) =>
    match t.resolve e.checkpoint with
    | .error _ => (.recovering (e :: stack), recoveries + 1)
    | .ok n =>
      match n.entryPast dir e.checkpoint.pos with
      | none => (.going stack, recoveries)
      | some (p, .leaf l) =>
        (.over (some ⟨l, (e.moveTo p :: stack).map Entry.checkpoint⟩), recoveries)
      | some (p, .inner m) =>
        match m.lock.liveSnapshot with
        | .error _ => (.recovering (e.moveTo p :: stack), recoveries + 1)
        | .ok seen =>
          let path := m.pathTo (e.checkpoint.path.length + n.stem.length + 1)
          (.going (.unvisited dir m.id path seen :: e.moveTo p :: stack), recoveries)
  | (.recovering [], recoveries) => (.seeking, recoveries)
  | (.recovering (e :: stack), recoveries) =>
    match t.resolve e.checkpoint with
    | .error _ => (.recovering stack, recoveries)
    | .ok n =>
      if e.onPath then
        match n.seekFrom dir bound e.checkpoint.path e.checkpoint.seen [] with
        | .error _ => (.recovering stack, recoveries)
        | .ok fresh => (.going (fresh.map .settled ++ stack), recoveries)
      else
        (.going (.unvisited dir n.id e.checkpoint.path e.checkpoint.seen :: stack), recoveries)
  | (.seeking, recoveries) =>
    match t.seek dir bound with
    | .error _ => (.seeking, recoveries + 1)
    | .ok fresh => (.going (fresh.map .settled), recoveries)
  | (.over found, recoveries) => (.over found, recoveries)

section

variable {t : Tree V} {dir : Direction} {bound : Option Key} {e : Entry} {stack : List Entry}
  {n m : Inner V} {p : Int}

theorem turn_going_stale {fault : Fault} (h : t.resolve e.checkpoint = .error fault) (r : Nat) :
    t.turn dir bound (.going (e :: stack), r) = (.recovering (e :: stack), r + 1) := by
  simp only [turn, h]

theorem turn_going_end (h : t.resolve e.checkpoint = .ok n)
    (hnone : n.entryPast dir e.checkpoint.pos = none) (r : Nat) :
    t.turn dir bound (.going (e :: stack), r) = (.going stack, r) := by
  simp only [turn, h, hnone]

theorem turn_going_leaf (h : t.resolve e.checkpoint = .ok n) {l : Leaf V}
    (hleaf : n.entryPast dir e.checkpoint.pos = some (p, .leaf l)) (r : Nat) :
    t.turn dir bound (.going (e :: stack), r) =
      (.over (some ⟨l, (e.moveTo p :: stack).map Entry.checkpoint⟩), r) := by
  simp only [turn, h, hleaf]

theorem turn_going_down (h : t.resolve e.checkpoint = .ok n)
    (hinner : n.entryPast dir e.checkpoint.pos = some (p, .inner m)) {seen : Snapshot}
    (hseen : m.lock.liveSnapshot = .ok seen) (r : Nat) :
    t.turn dir bound (.going (e :: stack), r) =
      (.going (.unvisited dir m.id (m.pathTo (e.checkpoint.path.length + n.stem.length + 1)) seen ::
        e.moveTo p :: stack), r) := by
  simp only [turn, h, hinner, hseen]

theorem turn_recovering_stale {fault : Fault} (h : t.resolve e.checkpoint = .error fault) (r : Nat) :
    t.turn dir bound (.recovering (e :: stack), r) = (.recovering stack, r) := by
  simp only [turn, h]

theorem turn_recovering_seek {cp : Checkpoint} (h : t.resolve cp = .ok n) {fresh : List Checkpoint}
    (hfresh : n.seekFrom dir bound cp.path cp.seen [] = .ok fresh) (r : Nat) :
    t.turn dir bound (.recovering (.settled cp :: stack), r) =
      (.going (fresh.map .settled ++ stack), r) := by
  simp only [turn, Entry.settled, h, hfresh, if_true]

theorem turn_seeking {fresh : List Checkpoint} (h : t.seek dir bound = .ok fresh) (r : Nat) :
    t.turn dir bound (.seeking, r) = (.going (fresh.map .settled), r) := by
  simp only [turn, h]

end

end Tree

namespace Cursor

/-- How a call for the next key sets about it. -/
def begin (c : Cursor) : Phase V :=
  if c.started then .going (c.stack.map .settled) else .seeking

/-- What a call comes to when its loop has ended with `found`. -/
def conclude (c : Cursor) (found : Option (Found V)) (recoveries : Nat) : Step V :=
  match found with
  | none => ⟨none, c.finish, recoveries⟩
  | some found =>
    if c.isBeyond found.leaf.key then ⟨none, c.finish, recoveries⟩
    else
      ⟨some found.leaf,
        { c with stack := found.stack, last := some found.leaf.key, started := true }, recoveries⟩

end Cursor

end RadixStore
