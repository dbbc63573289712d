import Mathlib
import RadixStore.Cursor.Next
import RadixStore.Proofs.Tree.Map

/-!
# Cursors and the values of a tree

A cursor looks at no value. In a tree with all values changed it goes the same way, and yields the
same keys with the changed values.
-/

namespace RadixStore

variable {V W : Type}

/-- A leaf that was found, with its value changed. -/
def Found.map (g : V → W) (f : Found V) : Found W :=
  ⟨f.leaf.map g, f.stack⟩

namespace Branch

variable (g : V → W)

/-! ### Finding a checkpoint again -/

theorem find?_eq (id : NodeId) (path : Key) (n : Inner V) (depth : Nat) :
    n.find? id path depth =
      if depth = path.length then
        if n.id = id then some n else none
      else
        match n.load (.ofKey path (depth + n.stem.length)) with
        | some (.inner m) => m.find? id path (depth + n.stem.length + 1)
        | _ => none := by
  rw [find?]
  split
  · rfl
  · split <;> rename_i hload
    · simp only [hload]
    · rcases h : n.load (.ofKey path (depth + n.stem.length)) with _ | l | m
      · rfl
      · rfl
      · exact absurd h (hload m)

theorem find?_map (id : NodeId) (path : Key) (n : Inner V) (depth : Nat) :
    (n.map g).find? id path depth = (n.find? id path depth).map (map g) := by
  rw [find?_eq, find?_eq id path n, load_map, stem_map, id_map]
  split
  · split <;> rfl
  · rcases hload : n.load _ with _ | l | m
    · rfl
    · simp
    · have hm := find?_map id path m (depth + n.stem.length + 1)
      simpa using hm
termination_by path.length - depth
decreasing_by
  have := lt_length_of_load hload
  omega

/-! ### Going down -/

theorem pathTo_map (n : Inner V) (depth : Nat) : (n.map g).pathTo depth = n.pathTo depth := by
  unfold pathTo
  rw [minLeaf?_map]
  rcases n.minLeaf? with _ | l <;> rfl

theorem firstLeaf?_eq (dir : Direction) (n : Inner V) (path : Key) (seen : Snapshot) (pos : Int)
    (stack : List Checkpoint) :
    n.firstLeaf? dir path seen pos stack =
      match n.entryPast dir pos with
      | none => none
      | some (p, .leaf l) => some ⟨l, ⟨n.id, path, seen, p⟩ :: stack⟩
      | some (p, .inner m) =>
        match m.lock.liveSnapshot with
        | .error _ => none
        | .ok seenBelow =>
          m.firstLeaf? dir (m.pathTo (path.length + n.stem.length + 1)) seenBelow dir.start
            (⟨n.id, path, seen, p⟩ :: stack) := by
  rw [firstLeaf?]
  split
  · rename_i hentry
    simp only [hentry]
  · rename_i hentry
    simp only [hentry]
  · rename_i p m hentry
    rcases hlive : m.lock.liveSnapshot with e | seenBelow <;> simp only [hentry, hlive]

theorem firstLeaf?_map (dir : Direction) (n : Inner V) (path : Key) (seen : Snapshot) (pos : Int)
    (stack : List Checkpoint) :
    (n.map g).firstLeaf? dir path seen pos stack =
      (n.firstLeaf? dir path seen pos stack).map (Found.map g) := by
  rw [firstLeaf?_eq, firstLeaf?_eq dir n, entryPast_map]
  rcases hentry : n.entryPast dir pos with _ | ⟨p, l | m⟩
  · rfl
  · simp [Found.map]
  · simp only [Option.map_some, onChild_mk, Node.map_inner, lock_map, stem_map, id_map, pathTo_map]
    rcases m.lock.liveSnapshot with e | seenBelow
    · rfl
    · exact firstLeaf?_map dir m _ seenBelow _ _
termination_by sizeOf n
decreasing_by exact sizeOf_lt_of_entryPast hentry

/-! ### Seeking -/

theorem seek_map (dir : Direction) (bound : Key) (n : Inner V) (depth : Nat) (seen : Snapshot)
    (stack : List Checkpoint) :
    (n.map g).seek dir bound depth seen stack = n.seek dir bound depth seen stack := by
  rw [seek, seek, fullStem_map]
  rcases n.fullStem depth with e | stem
  · rfl
  · rcases hside : Side.ofStem stem (bound.drop depth)
    · simp only [hside]
      rfl
    · simp only [hside]
      split <;> rename_i hb
      · rfl
      · rename_i b
        have hlt := (List.getElem?_eq_some_iff.1 hb).1
        rw [body_map, Body.child?_map]
        rcases hchild : n.body.child? b with _ | l | m
        · rfl
        · simp only [Option.map_some, Node.map_leaf]
          rfl
        · simp only [Option.map_some, Node.map_inner, lock_map]
          rcases m.lock.liveSnapshot with e | seenBelow
          · rfl
          · exact seek_map dir bound m _ seenBelow _
    · simp only [hside]
      rfl
termination_by bound.length - depth
decreasing_by omega

theorem seekFrom_map (n : Inner V) (dir : Direction) (bound : Option Key) (path : Key)
    (seen : Snapshot) (stack : List Checkpoint) :
    (n.map g).seekFrom dir bound path seen stack = n.seekFrom dir bound path seen stack := by
  cases bound with
  | none => rfl
  | some bound => exact seek_map g dir bound n path.length seen stack

end Branch

namespace Tree

variable (g : V → W) (t : Tree V)

theorem resolve_map (cp : Checkpoint) :
    (t.map g).resolve cp = (t.resolve cp).map (Branch.map g) := by
  have hfind : (t.map g).root.find? cp.id cp.path 0 = _ := Branch.find?_map g cp.id cp.path t.root 0
  unfold resolve
  rw [hfind]
  rcases t.root.find? cp.id cp.path 0 with _ | n
  · rfl
  · simp
    rcases n.lock.validate cp.seen with e | _ <;> rfl

theorem seek_map (dir : Direction) (bound : Option Key) :
    (t.map g).seek dir bound = t.seek dir bound := by
  unfold seek
  have hlock : (t.map g).root.lock = t.root.lock := rfl
  rw [hlock]
  rcases t.root.lock.liveSnapshot with e | seen
  · rfl
  · exact Branch.seekFrom_map g t.root dir bound [] seen []

theorem firstAfter?_map (dir : Direction) (stack fresh : List Checkpoint) :
    (t.map g).firstAfter? dir stack fresh = (t.firstAfter? dir stack fresh).map (Found.map g) := by
  induction fresh with
  | nil => rfl
  | cons cp fresh ih =>
    unfold firstAfter?
    rw [resolve_map]
    rcases t.resolve cp with e | n
    · exact ih
    · simp only [Except.map, Branch.firstLeaf?_map, ih]
      rcases n.firstLeaf? dir cp.path cp.seen cp.pos (fresh ++ stack) with _ | found <;> rfl

theorem advance_and_recover_map (dir : Direction) (bound : Option Key) (stack : List Checkpoint) :
    (t.map g).advance dir bound stack =
        ((t.advance dir bound stack).1.map (Found.map g), (t.advance dir bound stack).2) ∧
      (t.map g).recover dir bound stack =
        ((t.recover dir bound stack).1.map (Found.map g), (t.recover dir bound stack).2) := by
  induction stack with
  | nil =>
    refine ⟨rfl, ?_⟩
    unfold recover
    rw [seek_map]
    rcases t.seek dir bound with e | fresh
    · rfl
    · simp [firstAfter?_map]
  | cons cp stack ih =>
    obtain ⟨hadvance, hrecover⟩ := ih
    refine ⟨?_, ?_⟩
    · unfold advance
      rw [resolve_map]
      rcases t.resolve cp with e | n
      · simp [Except.map, hrecover]
      · simp only [Except.map, Branch.firstLeaf?_map, hadvance]
        rcases n.firstLeaf? dir cp.path cp.seen cp.pos stack with _ | found <;> rfl
    · unfold recover
      rw [resolve_map]
      rcases t.resolve cp with e | n
      · exact hrecover
      · simp only [Except.map, Branch.seekFrom_map]
        rcases n.seekFrom dir bound cp.path cp.seen [] with e | fresh
        · exact hrecover
        · simp only [firstAfter?_map, hadvance]
          rcases t.firstAfter? dir stack fresh with _ | found <;> rfl

end Tree

namespace Cursor

theorem next_map (g : V → W) (t : Tree V) (c : Cursor) :
    (c.next (t.map g)).item = (c.next t).item.map (Leaf.map g) ∧
      (c.next (t.map g)).cursor = (c.next t).cursor := by
  have hready : c.ready (t.map g) = c.ready t := by
    unfold ready
    rw [Tree.seek_map]
  unfold next
  rw [hready]
  split
  · exact ⟨rfl, rfl⟩
  · rcases c.ready t with e | stack
    · exact ⟨rfl, rfl⟩
    · simp only [(Tree.advance_and_recover_map g t c.dir c.resumeBound stack).1]
      rcases t.advance c.dir c.resumeBound stack with ⟨_ | found, recoveries⟩
      · exact ⟨rfl, rfl⟩
      · have hkey : (found.map g).leaf.key = found.leaf.key := rfl
        simp only [Option.map_some, hkey]
        split
        · exact ⟨rfl, rfl⟩
        · exact ⟨rfl, rfl⟩

theorem collect_map (g : V → W) (t : Tree V) (limit : Nat) (c : Cursor) :
    c.collect (t.map g) limit = (c.collect t limit).map (Leaf.map g) := by
  induction limit generalizing c with
  | zero => rfl
  | succ limit ih =>
    obtain ⟨hitem, hcursor⟩ := c.next_map g t
    simp only [collect, hitem, hcursor, ih]
    cases (c.next t).item <;> rfl

end Cursor

theorem Tree.scan_map (g : V → W) (t : Tree V) (lower upper : Option Key) (dir : Direction)
    (limit : Option Nat) :
    (t.map g).scan lower upper dir limit = (t.scan lower upper dir limit).map (Leaf.map g) :=
  Cursor.collect_map g t _ _

end RadixStore
