import Mathlib
import RadixStore.Proofs.Tree.FiniteMap

/-!
# The leaves of a tree

The leaves of a valid tree, listed from left to right, are the leaves below its root, in the order of
their keys. No key occurs twice among them, and there are as many as the tree counts.
-/

namespace RadixStore

variable {V : Type}

theorem Node.leaves_entries (n : Inner V) :
    (Node.inner n).leaves = n.entries.flatMap fun e => e.2.leaves := by
  have hleaf : ∀ l : Leaf V, (Node.leaf l).leaves = [l] := by
    intro l
    rw [Node.leaves]
  rw [Node.leaves_inner, Branch.entries, List.flatMap_append, List.flatMap_map]
  cases n.terminal with
  | none => rfl
  | some l => simp [hleaf]

namespace Branch

/-- The leaves listed below a valid node are the leaves below it. -/
theorem Valid.mem_leaves_iff {n : Inner V} {isRoot : Bool} {path : Key} (hn : n.Valid isRoot path)
    (l : Leaf V) :
    l ∈ (Node.inner n).leaves ↔ (Node.inner n).Has l := by
  obtain ⟨stem, hholds, -⟩ := hn
  have hchild : ∀ edge c, n.load edge = some c → (l ∈ c.leaves ↔ c.Has l) := by
    intro edge c hload
    cases c with
    | leaf k => rw [Node.leaves, List.mem_singleton, Node.has_leaf_iff]
    | inner m =>
      have hsize := sizeOf_lt_of_entry ((mem_entries hholds.sound).2 hload)
      obtain ⟨b, rfl⟩ := edge_of_load_inner hload
      exact (hholds.valid_of_load_inner hload).mem_leaves_iff l
  rw [Node.leaves_entries, List.mem_flatMap, Node.has_inner_iff]
  constructor
  · rintro ⟨⟨edge, c⟩, hmem, hl⟩
    have hload := (mem_entries hholds.sound).1 hmem
    exact ⟨edge, c, hload, (hchild edge c hload).1 hl⟩
  · rintro ⟨edge, c, hload, hl⟩
    exact ⟨(edge, c), (mem_entries hholds.sound).2 hload, (hchild edge c hload).2 hl⟩
termination_by sizeOf n

end Branch

theorem Node.Valid.mem_leaves_iff {c : Node V} {path : Key} (hc : c.Valid path) (l : Leaf V) :
    l ∈ c.leaves ↔ c.Has l := by
  cases c with
  | leaf k => rw [Node.leaves, List.mem_singleton, Node.has_leaf_iff]
  | inner n => exact (Node.valid_inner_iff.1 hc).mem_leaves_iff l

theorem Node.Under.mem_leaves_iff {here : Key} {edge : Edge} {c : Node V} (hc : c.Under here edge)
    (l : Leaf V) : l ∈ c.leaves ↔ c.Has l := by
  cases edge with
  | terminal =>
    obtain ⟨k, rfl, -⟩ := hc
    rw [Node.leaves, List.mem_singleton, Node.has_leaf_iff]
  | byte b =>
    have hc : c.Valid (here ++ [b]) := hc
    exact hc.mem_leaves_iff l

namespace Branch

/-- Leaves below different entries are in the order of the entries. -/
theorem Holds.leaves_lt {n : Inner V} {path stem : Key} (h : n.Holds path stem) :
    n.entries.Pairwise fun d e => ∀ k ∈ d.2.leaves, ∀ l ∈ e.2.leaves, k.key < l.key := by
  refine (entries_ascending h.sound).imp_of_mem ?_
  intro d e hd he hlt k hk l hl
  have hunder := h.under _ _ ((mem_entries h.sound).1 hd)
  have hunder' := h.under _ _ ((mem_entries h.sound).1 he)
  obtain ⟨hpre, hedge⟩ := hunder.edge_of_has ((hunder.mem_leaves_iff k).1 hk)
  obtain ⟨hpre', hedge'⟩ := hunder'.edge_of_has ((hunder'.mem_leaves_iff l).1 hl)
  have hne : Edge.ofKey k.key (path ++ stem).length ≠ Edge.ofKey l.key (path ++ stem).length := by
    rw [hedge, hedge']
    intro heq
    exact absurd hlt (heq ▸ lt_irrefl _)
  rw [Key.lt_iff_position_lt hpre hpre' hne, hedge, hedge']
  exact hlt

theorem Valid.leaves_ascend {n : Inner V} {isRoot : Bool} {path : Key} (hn : n.Valid isRoot path) :
    (Node.inner n).leaves.Pairwise fun k l => k.key < l.key := by
  obtain ⟨stem, hholds, -⟩ := hn
  rw [Node.leaves_entries, List.pairwise_flatMap]
  refine ⟨?_, hholds.leaves_lt⟩
  rintro ⟨edge, c⟩ hmem
  have hload := (mem_entries hholds.sound).1 hmem
  cases c with
  | leaf k =>
    rw [Node.leaves]
    exact List.pairwise_singleton _ _
  | inner m =>
    have hsize := sizeOf_lt_of_entry hmem
    obtain ⟨b, rfl⟩ := edge_of_load_inner hload
    exact (hholds.valid_of_load_inner hload).leaves_ascend
termination_by sizeOf n

end Branch

theorem Node.Under.leaves_ascend {here : Key} {edge : Edge} {c : Node V} (hc : c.Under here edge) :
    c.leaves.Pairwise fun k l => k.key < l.key := by
  cases c with
  | leaf l =>
    rw [Node.leaves]
    exact List.pairwise_singleton _ _
  | inner m =>
    cases edge with
    | terminal =>
      obtain ⟨l, hl, -⟩ := hc
      cases hl
    | byte b => exact (Node.valid_inner_iff.1 hc).leaves_ascend

namespace Tree

variable {t : Tree V}

theorem Valid.keys_ascend (ht : t.Valid) : (t.leaves.map Leaf.key).Pairwise (· < ·) :=
  List.pairwise_map.2 (Branch.Valid.leaves_ascend ht)

theorem Valid.nodup_keys (ht : t.Valid) : (t.leaves.map Leaf.key).Nodup := by
  refine ht.keys_ascend.imp ?_
  rintro k l hlt rfl
  exact List.lt_irrefl k hlt

theorem Represents.length_leaves {m : Dictionary V} (h : t.Represents m) :
    t.leaves.length = t.size := by
  have hkeys : m.keys = (t.leaves.map Leaf.key).toFinset := by
    ext key
    rw [Dictionary.mem_keys_iff, ← h.get?_eq, Option.isSome_iff_exists, List.mem_toFinset,
      List.mem_map]
    constructor
    · rintro ⟨v, hv⟩
      have hhas := h.valid.get?_eq_some_iff.1 hv
      exact ⟨⟨key, v⟩, (Branch.Valid.mem_leaves_iff h.valid _).2 hhas, rfl⟩
    · rintro ⟨l, hl, rfl⟩
      have hhas := (Branch.Valid.mem_leaves_iff h.valid _).1 hl
      exact ⟨l.value, h.valid.get?_eq_some_iff.2 hhas⟩
  rw [h.size_eq, hkeys, List.toFinset_card_of_nodup h.valid.nodup_keys, List.length_map]

end Tree

end RadixStore
