import Mathlib
import RadixStore.Proofs.Lock.Section
import RadixStore.Proofs.Node.Edges
import RadixStore.Tree.Insert
import RadixStore.Tree.Remove

/-!
# The representation invariant of the tree

A node is valid on a path, the bytes that lead to it. A leaf is valid on every beginning of its key.
An inner node is valid when there is a stem, of which it keeps the length and the first ten bytes,
such that the terminal has the path and the stem for its key, and every other child is valid on the
path, the stem and the byte of its edge. Besides, its lock is idle, it has at least two entries, and
its body is of the smallest kind that holds them. Only the root is exempt from the last two: it is of
the largest kind, and its stem is empty.

The map that a tree stands for is the set of leaves below its root. The invariant makes the keys of
these leaves determine the way to them.
-/

namespace RadixStore

variable {V : Type}

/-! ### Leaves below a node -/

/-- The leaf `l` is the node, or stands somewhere below it. -/
inductive Node.Has : Node V → Leaf V → Prop
  | leaf (l : Leaf V) : Has (.leaf l) l
  | inner {n : Inner V} {edge : Edge} {c : Node V} {l : Leaf V} :
      n.load edge = some c → Has c l → Has (.inner n) l

namespace Node

theorem has_leaf_iff {k l : Leaf V} : (leaf k).Has l ↔ l = k := by
  constructor
  · intro h
    cases h with
    | leaf => rfl
  · rintro rfl
    exact Has.leaf l

theorem has_inner_iff {n : Inner V} {l : Leaf V} :
    (inner n).Has l ↔ ∃ edge c, n.load edge = some c ∧ c.Has l := by
  constructor
  · intro h
    cases h with
    | inner hload hc => exact ⟨_, _, hload, hc⟩
  · rintro ⟨edge, c, hload, hc⟩
    exact Has.inner hload hc

end Node

/-! ### Validity -/

/-- No smaller kind holds as many children. -/
def Kind.IsLeast (k : Kind) (count : Nat) : Prop :=
  ∀ j : Kind, count ≤ j.capacity → k.capacity ≤ j.capacity

/-- What a node keeps in its fields when `stem` is its whole stem. -/
structure Branch.Fits (n : Inner V) (stem : Key) : Prop where
  stem_length : n.stem.length = stem.length
  stem_head : n.stem.head = stem.take maxStemHead
  sound : n.body.Sound
  idle : n.lock.Idle

/-- The node is where it belongs when the bytes of `path` lead to it. -/
inductive Node.Valid : Key → Node V → Prop
  | leaf {path : Key} {l : Leaf V} : path <+: l.key → Valid path (.leaf l)
  | inner {path stem : Key} {n : Inner V} : n.Fits stem → 2 ≤ n.entryCount →
      n.kind.IsLeast n.count →
      (∀ l, n.load .terminal = some (.leaf l) → l.key = path ++ stem) →
      (∀ b c, n.load (.byte b) = some c → Valid (path ++ stem ++ [b]) c) → Valid path (.inner n)

/-- The child on `edge` is where it belongs when the bytes of the node above end with `here`. -/
def Node.Under (here : Key) : Edge → Node V → Prop
  | .terminal, c => ∃ l, c = .leaf l ∧ l.key = here
  | .byte b, c => c.Valid (here ++ [b])

namespace Branch

/-- The inner node is where it belongs on `path`, and `stem` is its whole stem. -/
structure Holds (n : Inner V) (path stem : Key) : Prop extends n.Fits stem where
  under : ∀ edge c, n.load edge = some c → c.Under (path ++ stem) edge

/-- The size of a node: the root is of the largest kind and has no stem, any other node has two
    entries at least and is of the smallest kind that fits. -/
def Shaped (n : Inner V) (isRoot : Bool) (stem : Key) : Prop :=
  match isRoot with
  | true => stem = [] ∧ n.kind = .node256
  | false => 2 ≤ n.entryCount ∧ n.kind.IsLeast n.count

/-- The root, or another inner node, is valid on `path`. -/
def Valid (n : Inner V) (isRoot : Bool) (path : Key) : Prop :=
  ∃ stem, n.Holds path stem ∧ n.Shaped isRoot stem

end Branch

theorem Branch.Fits.holds {n : Inner V} {path stem : Key} (h : n.Fits stem)
    (hterminal : ∀ l, n.load .terminal = some (.leaf l) → l.key = path ++ stem)
    (hchild : ∀ b c, n.load (.byte b) = some c → c.Valid (path ++ stem ++ [b])) :
    n.Holds path stem := by
  refine ⟨h, ?_⟩
  intro edge c hload
  cases edge with
  | terminal =>
    obtain ⟨l, -, rfl⟩ := Option.map_eq_some_iff.1 hload
    exact ⟨l, rfl, hterminal l hload⟩
  | byte b => exact hchild b c hload

theorem Node.valid_inner_iff {n : Inner V} {path : Key} :
    (Node.inner n).Valid path ↔ n.Valid false path := by
  constructor
  · intro h
    cases h with
    | inner hfits hcount hleast hterminal hchild =>
      exact ⟨_, hfits.holds hterminal hchild, hcount, hleast⟩
  · rintro ⟨stem, ⟨hfits, hunder⟩, hcount, hleast⟩
    refine Node.Valid.inner hfits hcount hleast ?_ ?_
    · intro l hload
      obtain ⟨k, hk, hkey⟩ := hunder .terminal _ hload
      cases hk
      exact hkey
    · intro b c hload
      exact hunder (.byte b) c hload

/-- A tree is valid when its root is. -/
def Tree.Valid (t : Tree V) : Prop :=
  t.root.Valid true []

/-! ### Keys of the leaves below a valid node -/

/-- All keys below a valid node start with the bytes that lead to it. -/
theorem Node.Valid.prefix_of_has {path : Key} {c : Node V} {l : Leaf V} (hc : c.Valid path)
    (h : c.Has l) : path <+: l.key := by
  induction hc with
  | leaf hpath =>
    rw [Node.has_leaf_iff.1 h]
    exact hpath
  | @inner path stem n _ _ _ hterminal _ ih =>
    obtain ⟨edge, c, hload, hc⟩ := Node.has_inner_iff.1 h
    cases edge with
    | terminal =>
      obtain ⟨k, -, rfl⟩ := Option.map_eq_some_iff.1 hload
      rw [Node.has_leaf_iff.1 hc, hterminal k hload]
      exact List.prefix_append path stem
    | byte b =>
      have hpre := ih b c hload hc
      exact ((List.prefix_append path stem).trans (List.prefix_append _ [b])).trans hpre

/-- A leaf below the child on an edge has a key that follows this edge. -/
theorem Node.Under.edge_of_has {here : Key} {edge : Edge} {c : Node V} {l : Leaf V}
    (hc : c.Under here edge) (h : c.Has l) :
    here <+: l.key ∧ Edge.ofKey l.key here.length = edge := by
  cases edge with
  | terminal =>
    obtain ⟨k, rfl, rfl⟩ := hc
    rw [Node.has_leaf_iff.1 h]
    exact ⟨List.prefix_refl _, by simp [Edge.ofKey]⟩
  | byte b =>
    have hpre : here ++ [b] <+: l.key := Node.Valid.prefix_of_has hc h
    exact ⟨(List.prefix_append here [b]).trans hpre, Edge.ofKey_eq_byte_of_prefix hpre⟩

theorem Node.under_leaf {here : Key} {l : Leaf V} (h : here <+: l.key) :
    (Node.leaf l).Under here (Edge.ofKey l.key here.length) := by
  cases hedge : Edge.ofKey l.key here.length with
  | terminal => exact ⟨l, rfl, Edge.eq_of_ofKey_eq_terminal h hedge⟩
  | byte b => exact Node.Valid.leaf (Edge.prefix_of_ofKey_eq_byte h hedge)

namespace Branch

variable {n : Inner V} {path stem : Key}

/-- A leaf below a node is found on the edge that its key follows. -/
theorem Holds.has_iff (h : n.Holds path stem) {l : Leaf V} :
    (Node.inner n).Has l ↔ path ++ stem <+: l.key ∧
      ∃ c, n.load (Edge.ofKey l.key (path ++ stem).length) = some c ∧ c.Has l := by
  constructor
  · intro hl
    obtain ⟨edge, c, hload, hc⟩ := Node.has_inner_iff.1 hl
    obtain ⟨hpre, hedge⟩ := (h.under edge c hload).edge_of_has hc
    exact ⟨hpre, c, by rw [hedge]; exact hload, hc⟩
  · rintro ⟨-, c, hload, hc⟩
    exact Node.Has.inner hload hc

theorem Holds.prefix_of_has (h : n.Holds path stem) {l : Leaf V} (hl : (Node.inner n).Has l) :
    path ++ stem <+: l.key :=
  (h.has_iff.1 hl).1

/-- A leaf with a key that leads to an edge stands below what hangs off this edge, or not at all. -/
theorem Holds.has_iff_of_edge (h : n.Holds path stem) {l : Leaf V} {edge : Edge}
    (hedge : Edge.ofKey l.key (path ++ stem).length = edge) :
    (Node.inner n).Has l ↔ ∃ c, n.load edge = some c ∧ c.Has l := by
  subst hedge
  rw [h.has_iff]
  refine and_iff_right_of_imp ?_
  rintro ⟨c, hload, hc⟩
  exact h.prefix_of_has (Node.Has.inner hload hc)

/-- Of a leaf below a node the edge is known to which it belongs. -/
theorem Holds.has_of_edge (h : n.Holds path stem) {l : Leaf V} {edge : Edge} {c : Node V}
    (hl : (Node.inner n).Has l) (hedge : Edge.ofKey l.key (path ++ stem).length = edge)
    (hload : n.load edge = some c) : c.Has l := by
  obtain ⟨d, hd, hdl⟩ := (h.has_iff_of_edge hedge).1 hl
  rw [hload] at hd
  cases hd
  exact hdl

end Branch

/-! ### Every inner node leads to a leaf -/

namespace Branch

theorem exists_load_of_entryCount_pos {n : Inner V} (h : n.body.Sound) (hpos : 0 < n.entryCount) :
    ∃ edge c, n.load edge = some c := by
  rw [← length_entries h] at hpos
  obtain ⟨e, he⟩ := List.exists_mem_of_length_pos hpos
  exact ⟨e.1, e.2, (mem_entries h).1 he⟩

/-- From the first entry on there is a first leaf. -/
theorem exists_nextEntry {n : Inner V} (h : n.body.Sound) (hpos : 0 < n.entryCount) :
    ∃ p c edge, n.nextEntry beforeAll = some (p, c) ∧ n.load edge = some c := by
  obtain ⟨edge, c, hload⟩ := exists_load_of_entryCount_pos h hpos
  have hnear := nearest_nextEntry h beforeAll
  cases hn : n.nextEntry beforeAll with
  | none =>
    rw [hn] at hnear
    have hnone := hnear edge trivial (Direction.passes_start .forward edge)
    rw [hload] at hnone
    cases hnone
  | some e =>
    rw [hn] at hnear
    obtain ⟨edge', -, hload', -, -⟩ := hnear
    exact ⟨e.1, e.2, edge', rfl, hload'⟩

end Branch

/-- The smallest leaf below a valid inner node exists and is a leaf below it. -/
theorem Node.Valid.exists_minLeaf {path : Key} {c : Node V} (hc : c.Valid path) :
    ∀ n, c = .inner n → ∃ l, n.minLeaf? = some l ∧ (Node.inner n).Has l := by
  induction hc with
  | leaf _ =>
    intro n hn
    cases hn
  | @inner path stem m hfits hcount _ hterminal _ ih =>
    intro n hn
    cases hn
    obtain ⟨p, c, edge, hnext, hload⟩ := Branch.exists_nextEntry hfits.sound (by omega)
    rw [Branch.minLeaf?]
    split
    · rename_i hnone
      rw [hnext] at hnone
      cases hnone
    · rename_i q l hsome
      rw [hnext] at hsome
      cases hsome
      exact ⟨l, rfl, Node.Has.inner hload (Node.Has.leaf l)⟩
    · rename_i q k hsome
      rw [hnext] at hsome
      cases hsome
      cases edge with
      | terminal => exact absurd hload Branch.load_terminal_ne_inner
      | byte b =>
        obtain ⟨l, hl, hhas⟩ := ih b _ hload k rfl
        exact ⟨l, hl, Node.Has.inner hload hhas⟩

namespace Branch

variable {n : Inner V} {path stem : Key} {isRoot : Bool}

theorem Shaped.exists_minLeaf (hs : n.Shaped isRoot stem) (h : n.Holds path stem)
    (hpos : 0 < stem.length) : ∃ l, n.minLeaf? = some l ∧ (Node.inner n).Has l := by
  cases isRoot with
  | true =>
    obtain ⟨rfl, -⟩ := hs
    exact absurd hpos (Nat.lt_irrefl 0)
  | false => exact Node.Valid.exists_minLeaf (Node.valid_inner_iff.2 ⟨stem, h, hs⟩) n rfl

/-- A stem that is not empty is part of every key below its node, and there is one. -/
theorem Valid.exists_key_of_stem (hn : n.Valid isRoot path) (hpos : 0 < n.stem.length) :
    ∃ l, (Node.inner n).Has l ∧ path.length + n.stem.length ≤ l.key.length := by
  obtain ⟨stem, h, hs⟩ := hn
  rw [h.stem_length] at hpos ⊢
  obtain ⟨l, -, hl⟩ := hs.exists_minLeaf h hpos
  have hle := (h.prefix_of_has hl).length_le
  rw [List.length_append] at hle
  exact ⟨l, hl, hle⟩

theorem Holds.fullStem (h : n.Holds path stem) (hs : n.Shaped isRoot stem) :
    n.fullStem path.length = .ok stem := by
  unfold Branch.fullStem
  rw [h.stem_length, h.stem_head]
  by_cases hlen : stem.length ≤ maxStemHead
  · rw [if_pos hlen, List.take_of_length_le hlen]
  · rw [if_neg hlen]
    obtain ⟨l, hl, hhas⟩ := hs.exists_minLeaf h (Nat.zero_lt_of_lt (Nat.lt_of_not_le hlen))
    obtain ⟨rest, hkey⟩ := h.prefix_of_has hhas
    rw [hl]
    show (if path.length + stem.length ≤ l.key.length then
      Except.ok (l.key.slice path.length stem.length) else Except.error Fault.shortKey) = _
    have hle : path.length + stem.length ≤ l.key.length := by
      rw [← hkey, List.length_append, List.length_append]
      omega
    rw [if_pos hle]
    unfold Key.slice
    rw [← hkey, List.append_assoc, List.drop_left, List.take_left]

theorem Holds.liveSnapshot (h : n.Holds path stem) : n.lock.liveSnapshot = .ok ⟨n.lock.word⟩ :=
  h.idle.liveSnapshot

/-- A key below the node is not turned away by the bytes that the node keeps. -/
theorem Holds.admits (h : n.Holds path stem) {key : Key} (hkey : path ++ stem <+: key) :
    n.stem.admits key path.length = true := by
  obtain ⟨rest, rfl⟩ := hkey
  unfold Stem.admits
  rw [h.stem_length, h.stem_head, List.append_assoc, List.drop_left, Bool.and_eq_true]
  constructor
  · rw [decide_eq_true_iff, List.length_append, List.length_append]
    omega
  · rw [List.isPrefixOf_iff_prefix]
    exact (List.take_prefix _ _).trans (List.prefix_append _ _)

end Branch

end RadixStore
