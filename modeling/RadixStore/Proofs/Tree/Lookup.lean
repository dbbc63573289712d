import Mathlib
import RadixStore.Proofs.Tree.Invariant

/-!
# Looking a key up

The descent compares only the bytes of a stem that a node keeps and skips the others. In a valid tree
it ends all the same at the leaf with the key, if there is one, and never fails: a key that leaves a
stem past the bytes kept ends at a leaf with another key, or at none.
-/

namespace RadixStore

variable {V : Type}

namespace Branch

variable {n : Inner V} {path stem : Key}

theorem Holds.valid_of_load_inner (h : n.Holds path stem) {b : UInt8} {m : Inner V}
    (hload : n.load (.byte b) = some (.inner m)) : m.Valid false (path ++ stem ++ [b]) :=
  Node.valid_inner_iff.1 (h.under (.byte b) _ hload)

theorem edge_of_load_inner {m : Inner V} {edge : Edge} (hload : n.load edge = some (.inner m)) :
    ∃ b, edge = .byte b := by
  cases edge with
  | terminal => exact absurd hload load_terminal_ne_inner
  | byte b => exact ⟨b, rfl⟩

theorem length_path_append_byte (path stem : Key) (b : UInt8) :
    (path ++ stem ++ [b]).length = path.length + stem.length + 1 := by
  simp [Nat.add_assoc]

/-- Looking a key up below a valid node finds the value of the leaf with this key. The recursion
    follows the descent. -/
theorem Valid.search (key : Key) {n : Inner V} {isRoot : Bool} {path : Key}
    (h : n.Valid isRoot path) :
    ∃ found, n.search key path.length = .ok found ∧
      ∀ v, found = some v ↔ (Node.inner n).Has ⟨key, v⟩ := by
  obtain ⟨stem, hn, hs⟩ := h
  rw [Branch.search, hn.liveSnapshot]
  show ∃ found, (if n.stem.admits key path.length then _ else _) = _ ∧ _
  by_cases hadm : n.stem.admits key path.length = true
  · rw [if_pos hadm]
    split
    · rename_i hload
      rw [hn.stem_length, ← List.length_append] at hload
      refine ⟨none, rfl, ?_⟩
      intro v
      refine iff_of_false (by simp) ?_
      intro hhas
      obtain ⟨-, c, hc, -⟩ := hn.has_iff.1 hhas
      rw [hload] at hc
      cases hc
    · rename_i l hload
      rw [hn.stem_length, ← List.length_append] at hload
      refine ⟨_, rfl, ?_⟩
      intro v
      by_cases hkey : l.key = key
      · rw [if_pos hkey]
        subst hkey
        constructor
        · intro hv
          cases hv
          exact Node.Has.inner hload (Node.Has.leaf l)
        · intro hhas
          have hl := Node.has_leaf_iff.1 (hn.has_of_edge hhas rfl hload)
          rw [← hl]
      · rw [if_neg hkey]
        refine iff_of_false (by simp) ?_
        intro hhas
        have hl := Node.has_leaf_iff.1 (hn.has_of_edge hhas rfl hload)
        exact hkey (congrArg Leaf.key hl).symm
    · rename_i m hload
      have hlt := lt_length_of_load hload
      rw [hn.stem_length, ← List.length_append] at hload
      obtain ⟨b, hb⟩ := edge_of_load_inner hload
      have hm : m.Valid false (path ++ stem ++ [b]) := hn.valid_of_load_inner (hb ▸ hload)
      obtain ⟨found, hfound, hiff⟩ := Valid.search key hm
      rw [length_path_append_byte, ← hn.stem_length] at hfound
      refine ⟨found, hfound, ?_⟩
      intro v
      rw [hiff v]
      constructor
      · intro hhas
        exact Node.Has.inner hload hhas
      · intro hhas
        exact hn.has_of_edge hhas rfl hload
  · rw [if_neg hadm]
    refine ⟨none, rfl, ?_⟩
    intro v
    refine iff_of_false (by simp) ?_
    intro hhas
    exact hadm (hn.admits (hn.prefix_of_has hhas))
termination_by key.length - path.length
decreasing_by
  simp only [List.length_append, List.length_singleton]
  have := hn.stem_length
  omega

end Branch

namespace Tree

variable {t : Tree V}

/-- The tree stores `v` under `key` exactly when a leaf says so. -/
theorem Valid.get?_eq_some_iff (h : t.Valid) {key : Key} {v : V} :
    t.get? key = some v ↔ (Node.inner t.root).Has ⟨key, v⟩ := by
  obtain ⟨found, hfound, hiff⟩ := Branch.Valid.search key h
  have hget : t.get? key = found := by
    unfold Tree.get? Tree.trySearch
    rw [show t.root.search key 0 = .ok found from hfound]
  rw [hget, hiff v]

theorem Valid.get?_eq_none_iff (h : t.Valid) {key : Key} :
    t.get? key = none ↔ ∀ v, ¬ (Node.inner t.root).Has ⟨key, v⟩ := by
  rw [Option.eq_none_iff_forall_ne_some]
  exact forall_congr' fun v => not_congr h.get?_eq_some_iff

theorem valid_empty : (empty : Tree V).Valid := by
  refine ⟨[], ⟨⟨rfl, rfl, Body.sound_empty .node256, VersionLock.idle_fresh⟩, ?_⟩, rfl, rfl⟩
  intro edge c hload
  rw [empty, Branch.load_empty] at hload
  cases hload

theorem get?_empty (key : Key) : (empty : Tree V).get? key = none := by
  rw [valid_empty.get?_eq_none_iff]
  intro v hhas
  obtain ⟨edge, c, hload, -⟩ := Node.has_inner_iff.1 hhas
  rw [empty, Branch.load_empty] at hload
  cases hload

end Tree

end RadixStore
