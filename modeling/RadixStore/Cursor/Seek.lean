import RadixStore.Cursor.Basic

/-!
# Seeking

Seeking puts checkpoints on the path of a bound, such that the entries after their positions are
exactly the keys after the bound, nearest first from the deepest checkpoint on. The descent follows
the bound through the tree. It ends where the bound leaves the tree: inside a stem, at a terminal,
on a byte without a child or at a leaf.
-/

namespace RadixStore

variable {V : Type}

/-- Where the keys that go on with `stem` lie with respect to a bound that goes on with `rest`. -/
inductive Side where
  /-- All of them below the bound. -/
  | below
  /-- The bound goes on beyond the stem. -/
  | within
  /-- All of them above the bound. -/
  | above
deriving DecidableEq, Repr

/-- Compare a stem with what is left of a bound. A bound that ends inside the stem lies below. -/
def Side.ofStem : Key → Key → Side
  | [], _ => .within
  | _ :: _, [] => .above
  | x :: stem, y :: rest =>
    if x < y then .below else if y < x then .above else ofStem stem rest

/-- Whether keys on this side of a bound come after it. -/
def Side.isPast : Direction → Side → Bool
  | .forward, .above => true
  | .backward, .below => true
  | _, _ => false

/-- The position to go on from when the child at position `pos` is still to be visited. -/
def Direction.stepBack (dir : Direction) (pos : Int) : Int :=
  match dir with
  | .forward => pos - 1
  | .backward => pos + 1

namespace Branch

/-- Add to `stack` the checkpoints from a node reached at `depth`, whose lock word was `seen`, down
    the path of `bound`. -/
def seek (dir : Direction) (bound : Key) (n : Inner V) (depth : Nat) (seen : Snapshot)
    (stack : List Checkpoint) : Except Fault (List Checkpoint) :=
  match n.fullStem depth with
  | .error e => .error e
  | .ok stem =>
    let here (pos : Int) : List Checkpoint := ⟨n.id, bound.take depth, seen, pos⟩ :: stack
    match Side.ofStem stem (bound.drop depth) with
    | .below => .ok (if Side.isPast dir .below then here dir.start else stack)
    | .above => .ok (if Side.isPast dir .above then here dir.start else stack)
    | .within =>
      match _h : bound[depth + stem.length]? with
      | none =>
        match dir with
        | .forward => .ok (here Edge.terminal.position)
        | .backward => .ok stack
      | some b =>
        let pos := (Edge.byte b).position
        match n.body.child? b with
        | none => .ok (here pos)
        | some (.leaf l) => .ok (here (if dir.isPast bound l.key then dir.stepBack pos else pos))
        | some (.inner m) =>
          match m.lock.liveSnapshot with
          | .error e => .error e
          | .ok seenBelow => seek dir bound m (depth + stem.length + 1) seenBelow (here pos)
termination_by bound.length - depth
decreasing_by
  have := (List.getElem?_eq_some_iff.1 _h).1
  omega

/-- Checkpoints from a node, reached on `path`, for all keys below it after `bound`; without a
    bound for all keys below it. -/
def seekFrom (n : Inner V) (dir : Direction) (bound : Option Key) (path : Key) (seen : Snapshot)
    (stack : List Checkpoint) : Except Fault (List Checkpoint) :=
  match bound with
  | none => .ok (⟨n.id, path, seen, dir.start⟩ :: stack)
  | some bound => n.seek dir bound path.length seen stack

end Branch

/-- Checkpoints from the root on for all keys after `bound`. -/
def Tree.seek (t : Tree V) (dir : Direction) (bound : Option Key) :
    Except Fault (List Checkpoint) :=
  match t.root.lock.liveSnapshot with
  | .error e => .error e
  | .ok seen => t.root.seekFrom dir bound [] seen []

end RadixStore
