import Mathlib
import RadixStore.Proofs.Cursor.Seek
import RadixStore.Proofs.Node.Walk
import RadixStore.Proofs.Tree.Arrangement

/-!
# What is still to come for a cursor

A checkpoint that holds stands for the leaves under the edges past its position, in the order of the
direction, and a stack of checkpoints for what its checkpoints stand for, the deepest first. Seeking a
bound from any node of a tree adds checkpoints that stand for the leaves below this node that come after
the bound: for all of them, for no other leaf, in order and for each once.
-/

namespace RadixStore

variable {V : Type}

/-! ### What checkpoints stand for -/

/-- The leaves under the edges past a position, as a walk through the node meets them. -/
def Branch.upcoming (n : Inner V) (dir : Direction) (pos : Int) : List (Leaf V) :=
  (n.walk dir pos).flatMap fun e => dir.along e.2.leaves

/-- The leaves that a checkpoint stands for; none when it does not hold. -/
def Checkpoint.upcoming (t : Tree V) (dir : Direction) (cp : Checkpoint) : List (Leaf V) :=
  match t.resolve cp with
  | .error _ => []
  | .ok n => n.upcoming dir cp.pos

/-- The leaves that a stack of checkpoints stands for, its top coming first. -/
def Tree.upcoming (t : Tree V) (dir : Direction) (stack : List Checkpoint) : List (Leaf V) :=
  stack.flatMap fun cp => cp.upcoming t dir

/-! ### Lists of leaves in order -/

/-- The leaves with `P`, in the order of the direction. No key comes after itself, so none is listed
    twice. -/
structure Lists (dir : Direction) (ls : List (Leaf V)) (P : Leaf V → Prop) : Prop where
  mem_iff : ∀ l, l ∈ ls ↔ P l
  order : ls.Pairwise fun k l => dir.isPast k.key l.key = true

namespace Lists

variable {dir : Direction} {ls ls' : List (Leaf V)} {P Q : Leaf V → Prop}

theorem congr (h : Lists dir ls P) (hPQ : ∀ l, P l ↔ Q l) : Lists dir ls Q :=
  ⟨fun l => (h.mem_iff l).trans (hPQ l), h.order⟩

theorem nil (h : ∀ l, ¬ P l) : Lists dir [] P :=
  ⟨fun l => by simp [h l], List.Pairwise.nil⟩

theorem append (h : Lists dir ls P) (h' : Lists dir ls' Q)
    (hcross : ∀ k l, P k → Q l → dir.isPast k.key l.key = true) :
    Lists dir (ls ++ ls') fun l => P l ∨ Q l := by
  constructor
  · intro l
    rw [List.mem_append, h.mem_iff, h'.mem_iff]
  · rw [List.pairwise_append]
    refine ⟨h.order, h'.order, ?_⟩
    intro k hk l hl
    exact hcross k l ((h.mem_iff k).1 hk) ((h'.mem_iff l).1 hl)

end Lists

/-! ### One checkpoint -/

/-- The leaves below a child, in the order of the direction. -/
theorem Node.Under.lists {here : Key} {edge : Edge} {c : Node V} (hc : c.Under here edge)
    (dir : Direction) : Lists dir (dir.along c.leaves) c.Has := by
  constructor
  · intro l
    rw [Direction.mem_along, hc.mem_leaves_iff]
  · have hascend : c.leaves.Pairwise fun k l => Direction.forward.isPast k.key l.key = true := by
      refine hc.leaves_ascend.imp ?_
      intro k l hlt
      exact decide_eq_true hlt
    exact Direction.pairwise_along (R := fun dir (k l : Leaf V) => dir.isPast k.key l.key = true)
      (fun _ _ h => h) hascend dir

namespace Branch

variable {n : Inner V} {path stem bound : Key} {dir : Direction}

/-- What is still to come in a node are the leaves ahead of the position. -/
theorem Holds.lists_upcoming (hn : n.Holds path stem) (dir : Direction) (pos : Int) :
    Lists dir (n.upcoming dir pos) (n.Ahead dir pos) := by
  have hmem : ∀ e, e ∈ n.walk dir pos ↔ n.load e.1 = some e.2 ∧ dir.Passes pos e.1.position := by
    intro e
    rw [walk_eq_filter hn.sound, List.mem_filter, Direction.mem_along, mem_entries hn.sound,
      decide_eq_true_iff]
  have hlists : ∀ e ∈ n.walk dir pos, Lists dir (dir.along e.2.leaves) e.2.Has := fun e he =>
    (hn.under e.1 e.2 ((hmem e).1 he).1).lists dir
  constructor
  · intro l
    unfold upcoming Ahead
    rw [List.mem_flatMap]
    constructor
    · rintro ⟨e, he, hl⟩
      obtain ⟨hload, hpast⟩ := (hmem e).1 he
      exact ⟨e.1, e.2, hload, hpast, ((hlists e he).mem_iff l).1 hl⟩
    · rintro ⟨edge, c, hload, hpast, hl⟩
      have he : (edge, c) ∈ n.walk dir pos := (hmem _).2 ⟨hload, hpast⟩
      exact ⟨(edge, c), he, ((hlists _ he).mem_iff l).2 hl⟩
  · have hwalk : (n.walk dir pos).Pairwise fun d e => dir.Passes d.1.position e.1.position := by
      rw [walk_eq_filter hn.sound]
      exact (along_entries hn.sound dir).filter _
    unfold upcoming
    rw [List.pairwise_flatMap]
    refine ⟨fun e he => (hlists e he).order, hwalk.imp_of_mem ?_⟩
    intro d e hd he hpast k hk l hl
    exact hn.isPast_of_passes ((hmem d).1 hd).1 (((hlists d hd).mem_iff k).1 hk)
      ((hmem e).1 he).1 (((hlists e he).mem_iff l).1 hl) hpast

end Branch

/-! ### The checkpoints of a descent -/

variable {t : Tree V} {dir : Direction}

theorem Tree.upcoming_append (t : Tree V) (dir : Direction) (fresh stack : List Checkpoint) :
    t.upcoming dir (fresh ++ stack) = t.upcoming dir fresh ++ t.upcoming dir stack :=
  List.flatMap_append

theorem Checkpoint.At.upcoming_eq {cp : Checkpoint} {n : Inner V} (h : cp.At t n) (ht : t.Valid) :
    t.upcoming dir [cp] = n.upcoming dir cp.pos := by
  unfold Tree.upcoming Checkpoint.upcoming
  rw [List.flatMap_singleton, h.resolve ht]

namespace Branch

variable {n : Inner V} {path stem bound : Key} {fresh : List Checkpoint}

/-- Where a bound goes on below a child, the leaves past it are those past it below the child, and then
    those under the later edges. -/
theorem Holds.lists_below (hn : n.Holds path stem) {b : UInt8} {m : Inner V} {ls : List (Leaf V)}
    (hload : n.load (.byte b) = some (.inner m)) (hbound : path ++ stem ++ [b] <+: bound)
    (hls : Lists dir ls fun l => (Node.inner m).Has l ∧ dir.isPast bound l.key = true) :
    Lists dir (ls ++ n.upcoming dir (Edge.byte b).position)
      fun l => (Node.inner n).Has l ∧ dir.isPast bound l.key = true := by
  have hpre : path ++ stem <+: bound := (List.prefix_append _ [b]).trans hbound
  have hedge : Edge.ofKey bound (path ++ stem).length = .byte b :=
    Edge.ofKey_eq_byte_of_prefix hbound
  have hlater := hn.lists_upcoming dir (Edge.byte b).position
  refine (hls.append hlater ?_).congr ?_
  · rintro k l ⟨hk, -⟩ ⟨edge, c, hload', hpast, hl⟩
    exact hn.isPast_of_passes hload hk hload' hl hpast
  · intro l
    constructor
    · rintro (⟨hl, hpast⟩ | ⟨edge, c, hload', hpast, hl⟩)
      · exact ⟨Node.Has.inner hload hl, hpast⟩
      · exact ⟨Node.Has.inner hload' hl,
          (hn.isPast_iff_of_bound hpre hedge hload' hl).2 (Or.inl hpast)⟩
    · rintro ⟨hl, hpast⟩
      obtain ⟨edge, c, hload', hc⟩ := Node.has_inner_iff.1 hl
      rcases (hn.isPast_iff_of_bound hpre hedge hload' hc).1 hpast with h | ⟨rfl, -⟩
      · exact Or.inr ⟨edge, c, hload', h, hc⟩
      · rw [hload] at hload'
        cases hload'
        exact Or.inl ⟨hc, hpast⟩

/-- The checkpoints of a descent to a bound stand for the leaves past it. -/
theorem Sought.lists (h : Sought dir bound n path fresh) (ht : t.Valid)
    (hreach : t.root.Reaches [] n path) :
    Lists dir (t.upcoming dir fresh)
      fun l => (Node.inner n).Has l ∧ dir.isPast bound l.key = true := by
  induction h with
  | spent hspent =>
    refine Lists.nil ?_
    rintro l ⟨hl, hpast⟩
    rw [hspent l hl] at hpast
    cases hpast
  | @split n path pos hsplits =>
    have hat : Checkpoint.At t ⟨n.id, path, ⟨n.lock.word⟩, pos⟩ n := ⟨hreach, rfl, rfl⟩
    obtain ⟨r, hn⟩ := hreach.valid ht
    obtain ⟨stem, hholds, -⟩ := hn
    rw [hat.upcoming_eq ht]
    refine (hholds.lists_upcoming dir pos).congr ?_
    intro l
    constructor
    · intro hl
      exact ⟨hl.has, (hsplits l hl.has).2 hl⟩
    · rintro ⟨hl, hpast⟩
      exact (hsplits l hl).1 hpast
  | @down n m path stem b fresh hstem hload hbelow _ ih =>
    have hat : Checkpoint.At t ⟨n.id, path, ⟨n.lock.word⟩, (Edge.byte b).position⟩ n :=
      ⟨hreach, rfl, rfl⟩
    obtain ⟨r, hn⟩ := hreach.valid ht
    rw [Tree.upcoming_append, hat.upcoming_eq ht]
    exact (hn.holds_of_fullStem hstem).lists_below hload hbelow
      (ih (hreach.trans (.child hstem hload .here)))

/-- Seeking from any node, with a bound or without, adds checkpoints that stand for exactly what is to
    come below the node. -/
theorem Reaches.seekFrom_lists (hreach : t.root.Reaches [] n path) (ht : t.Valid) (dir : Direction)
    {bound : Option Key} (hbound : ∀ b ∈ bound, path <+: b) (stack : List Checkpoint) :
    ∃ fresh, n.seekFrom dir bound path ⟨n.lock.word⟩ stack = .ok (fresh ++ stack) ∧
      (∀ cp ∈ fresh, ∃ m, cp.At t m) ∧
      Lists dir (t.upcoming dir fresh)
        fun l => (Node.inner n).Has l ∧ ∀ b ∈ bound, dir.isPast b l.key = true := by
  obtain ⟨r, hn⟩ := hreach.valid ht
  cases bound with
  | none =>
    have hat : Checkpoint.At t ⟨n.id, path, ⟨n.lock.word⟩, dir.start⟩ n := ⟨hreach, rfl, rfl⟩
    obtain ⟨stem, hholds, -⟩ := hn
    refine ⟨[⟨n.id, path, ⟨n.lock.word⟩, dir.start⟩], rfl, by simpa using ⟨n, hat⟩, ?_⟩
    rw [hat.upcoming_eq ht]
    refine (hholds.lists_upcoming dir dir.start).congr ?_
    intro l
    rw [ahead_start_iff]
    simp
  | some bound =>
    obtain ⟨fresh, hseek, hsought⟩ := hn.exists_sought dir (hbound bound rfl) stack
    refine ⟨fresh, hseek, hsought.stands hreach, (hsought.lists ht hreach).congr ?_⟩
    simp

end Branch

/-- Whatever was done to a tree before, seeking from any of its inner nodes succeeds. It leaves the
    checkpoints there were, and adds some that hold, each at a node that is reached on its bytes; these
    stand for the leaves below the node that come after the bound, in order and each once. -/
theorem TreeScript.exec_seek_exact (ops : List (Op V)) {n : Inner V} {path : Key}
    (hreach : (exec (start : State V) ops).tree.root.Reaches [] n path) (dir : Direction)
    (bound : Option Key) (hbound : ∀ b ∈ bound, path <+: b) (stack : List Checkpoint) :
    let t := (exec (start : State V) ops).tree
    ∃ seen fresh, n.lock.liveSnapshot = .ok seen ∧
      n.seekFrom dir bound path seen stack = .ok (fresh ++ stack) ∧
      Lists dir (t.upcoming dir fresh)
        (fun l => (Node.inner n).Has l ∧ ∀ b ∈ bound, dir.isPast b l.key = true) ∧
      ∀ cp ∈ fresh, ∃ m, t.resolve cp = .ok m ∧ t.root.Reaches [] m cp.path := by
  intro t
  have hstart : (start : State V).tree.Represents ∅ := Tree.Represents.empty
  obtain ⟨d, hd⟩ := exec_represents ops hstart
  have ht : t.Valid := hd.valid
  obtain ⟨r, stem, hholds, -⟩ := hreach.valid ht
  obtain ⟨fresh, hseek, hstand, hlists⟩ := hreach.seekFrom_lists ht dir hbound stack
  refine ⟨_, fresh, hholds.liveSnapshot, hseek, hlists, ?_⟩
  intro cp hcp
  obtain ⟨m, hm⟩ := hstand cp hcp
  exact ⟨m, hm.resolve ht, hm.reached⟩

/-- Two keys that part behind thirteen common bytes, and a bound that leaves them at the twelfth: seeking
    from the node where they part, which keeps ten bytes of its stem. -/
theorem TreeScript.seek_exact_within_stem :
    let t := (exec (start : State Nat) [.insert (List.replicate 13 7 ++ [1]) 10,
      .insert (List.replicate 13 7 ++ [2]) 20]).tree
    ∃ n seen fresh, t.root.Reaches [] n [7] ∧ (Node.inner n).shape = ⟨1, 0, 0, 0, 2, 2⟩ ∧
      n.seekFrom .forward (some (List.replicate 11 7 ++ [6])) [7] seen [] = .ok fresh ∧
      Lists .forward (t.upcoming .forward fresh)
        (fun l => (Node.inner n).Has l ∧ List.replicate 11 7 ++ [6] < l.key) := by
  intro t
  have hshape : (t.root.load (.byte 7)).map Node.shape = some ⟨1, 0, 0, 0, 2, 2⟩ := by
    decide +kernel
  obtain ⟨c, hload, hshape⟩ := Option.map_eq_some_iff.1 hshape
  have hroot : t.root.fullStem ([] : Key).length = .ok [] := by decide +kernel
  cases c with
  | leaf l =>
    rw [Node.shape] at hshape
    exact absurd hshape (by decide)
  | inner n =>
    have hreach : t.root.Reaches [] n [7] := .child hroot hload .here
    have hbound : ∀ b ∈ some (List.replicate 11 7 ++ [6]), ([7] : Key) <+: b := by
      intro b hb
      cases hb
      decide
    obtain ⟨seen, fresh, -, hseek, hlists, -⟩ := exec_seek_exact _ hreach .forward _ hbound []
    rw [List.append_nil] at hseek
    refine ⟨n, seen, fresh, hreach, hshape, hseek, hlists.congr ?_⟩
    intro l
    simp [Direction.isPast]

end RadixStore
