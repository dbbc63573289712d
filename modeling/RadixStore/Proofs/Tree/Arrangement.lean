import Mathlib
import RadixStore.Proofs.Tree.Leaves

/-!
# How a tree is arranged

Every inner node of a tree covers the bytes of the keys below it from the depth at which it is reached
to the end of its stem: all keys below the node agree up to there, the key of its terminal ends there,
and the other keys go on with the byte of the edge that they are found on. The root is of the largest
kind and has no stem; every other inner node has two entries at least and is of the smallest kind that
holds its children. It is so whatever was stored and removed before.
-/

namespace RadixStore

variable {V : Type}

namespace Branch

/-- From the node `n`, which is reached at some depth, the node `m` is reached at another one by going
    down from child to child. -/
inductive Descends : Inner V → Nat → Inner V → Nat → Prop
  | here {n : Inner V} {depth : Nat} : Descends n depth n depth
  | child {n c m : Inner V} {depth deeper : Nat} {b : UInt8} :
      n.body.child? b = some (.inner c) → Descends c (depth + n.stem.length + 1) m deeper →
      Descends n depth m deeper

/-- The fields of a node that is reached at `depth` fit the keys below it. -/
structure Arranged (n : Inner V) (depth : Nat) : Prop where
  /-- The keys below the node agree up to the end of its stem. -/
  agree : ∀ k ∈ (Node.inner n).leaves, ∀ l ∈ (Node.inner n).leaves,
    k.key.take (depth + n.stem.length) = l.key.take (depth + n.stem.length)
  /-- None of them ends before. -/
  le_length : ∀ l ∈ (Node.inner n).leaves, depth + n.stem.length ≤ l.key.length
  /-- The bytes that the node keeps are the first ones of its stem, -/
  stem_head : ∀ l ∈ (Node.inner n).leaves,
    n.stem.head = l.key.slice depth (min n.stem.length maxStemHead)
  /-- and the whole stem is known from the keys. -/
  full_stem : ∀ l ∈ (Node.inner n).leaves,
    n.fullStem depth = .ok (l.key.slice depth n.stem.length)
  /-- The key of the terminal ends with the stem. -/
  terminal : ∀ l, n.terminal = some l → l.key.length = depth + n.stem.length
  /-- The keys below a child go on with its byte. -/
  child : ∀ b c, n.body.child? b = some c → ∀ l ∈ c.leaves, l.key[depth + n.stem.length]? = some b
  /-- The children are listed once each, -/
  listed : ∀ b c, (b, c) ∈ n.body.toList ↔ n.body.child? b = some c
  /-- under different bytes, -/
  bytes : (n.body.toList.map Prod.fst).Nodup
  /-- and counted. -/
  count : n.count = n.body.toList.length

end Branch

/-- The fields of all nodes fit the keys that the tree stores, and their kinds the numbers of their
    children. -/
structure Tree.Arranged (t : Tree V) : Prop where
  root_kind : t.root.kind = .node256
  root_stem : t.root.stem = .empty
  nodes : ∀ n depth, t.root.Descends 0 n depth → n.Arranged depth
  /-- Every inner node but the root has two entries at least, and no kind is smaller that holds its
      children. -/
  kinds : ∀ n depth b m, t.root.Descends 0 n depth → n.body.child? b = some (.inner m) →
    2 ≤ m.entryCount ∧ m.count ≤ m.kind.capacity ∧ m.kind.IsLeast m.count
  size : t.size = t.leaves.length
  keys : (t.leaves.map Leaf.key).Nodup

namespace Branch

variable {n m : Inner V} {path stem : Key} {isRoot : Bool} {depth : Nat}

theorem Holds.length_here (h : n.Holds path stem) :
    path.length + n.stem.length = (path ++ stem).length := by
  rw [h.stem_length, List.length_append]

/-- The stem is read off any key below the node. -/
theorem Holds.slice_eq (h : n.Holds path stem) {l : Leaf V} (hl : (Node.inner n).Has l) :
    l.key.slice path.length n.stem.length = stem := by
  obtain ⟨rest, hkey⟩ := h.prefix_of_has hl
  unfold Key.slice
  rw [← hkey, h.stem_length, List.append_assoc, List.drop_left, List.take_left]

theorem Valid.arranged (hn : n.Valid isRoot path) : n.Arranged path.length := by
  have hleaf := hn.mem_leaves_iff
  obtain ⟨stem, hholds, hshaped⟩ := hn
  have hhere := hholds.length_here
  have htake : ∀ l ∈ (Node.inner n).leaves,
      l.key.take (path.length + n.stem.length) = path ++ stem := by
    intro l hl
    rw [hhere]
    exact (List.prefix_iff_eq_take.1 (hholds.prefix_of_has ((hleaf l).1 hl))).symm
  have hslice : ∀ l ∈ (Node.inner n).leaves, l.key.slice path.length n.stem.length = stem :=
    fun l hl => hholds.slice_eq ((hleaf l).1 hl)
  constructor
  · intro k hk l hl
    rw [htake k hk, htake l hl]
  · intro l hl
    rw [hhere]
    exact (hholds.prefix_of_has ((hleaf l).1 hl)).length_le
  · intro l hl
    have hhead := congrArg (List.take maxStemHead) (hslice l hl)
    unfold Key.slice at hhead ⊢
    rw [List.take_take] at hhead
    rw [hholds.stem_head, Nat.min_comm, ← hhead]
  · intro l hl
    rw [hslice l hl]
    exact hholds.fullStem hshaped
  · intro l hl
    obtain ⟨k, hk, hkey⟩ := hholds.under .terminal _ (terminal_eq_some_iff.1 hl)
    cases hk
    rw [hhere, hkey]
  · intro b c hload l hl
    have hunder := hholds.under (.byte b) c hload
    obtain ⟨hpre, hedge⟩ := hunder.edge_of_has ((hunder.mem_leaves_iff l).1 hl)
    obtain ⟨rest, hkey⟩ := Edge.prefix_of_ofKey_eq_byte hpre hedge
    rw [hhere, ← hkey, List.append_assoc, List.getElem?_append_right le_rfl]
    simp
  · intro b c
    exact hholds.sound.mem_toList
  · refine List.Pairwise.imp ?_ (List.pairwise_map.2 hholds.sound.toList_ascending)
    intro b c hlt heq
    exact UInt8.lt_irrefl b (heq ▸ hlt)
  · exact hholds.sound.length_toList.symm

theorem Valid.kind_least (hn : n.Valid false path) :
    2 ≤ n.entryCount ∧ n.count ≤ n.kind.capacity ∧ n.kind.IsLeast n.count := by
  obtain ⟨stem, hholds, htwo, hleast⟩ := hn
  exact ⟨htwo, hholds.sound.count_le, hleast⟩

/-- Whatever is reached from a valid node is valid on a path that is as long as the depth. -/
theorem Descends.valid (h : n.Descends path.length m depth) (hn : n.Valid isRoot path) :
    ∃ r q, q.length = depth ∧ m.Valid r q := by
  generalize hd : path.length = d at h
  induction h generalizing path isRoot with
  | here => exact ⟨isRoot, path, hd, hn⟩
  | @child n c m d depth b hload _ ih =>
    obtain ⟨stem, hholds, -⟩ := hn
    refine ih (hholds.valid_of_load_inner hload) ?_
    rw [length_path_append_byte, hholds.stem_length, hd]

end Branch

theorem Tree.Valid.of_descends {t : Tree V} (ht : t.Valid) {n : Inner V} {depth : Nat}
    (h : t.root.Descends 0 n depth) : ∃ r q, q.length = depth ∧ n.Valid r q := by
  have hroot : t.root.Descends ([] : Key).length n depth := h
  exact hroot.valid ht

/-- A valid tree that counts its keys right is arranged. -/
theorem Tree.Represents.arranged {t : Tree V} {m : Dictionary V} (h : t.Represents m) :
    t.Arranged where
  root_kind := by
    obtain ⟨stem, -, -, hkind⟩ := h.valid
    exact hkind
  root_stem := by
    obtain ⟨stem, hholds, rfl, -⟩ := h.valid
    have hlength : t.root.stem.length = 0 := hholds.stem_length
    have hhead : t.root.stem.head = [] := hholds.stem_head
    have hfields : t.root.stem = ⟨t.root.stem.length, t.root.stem.head⟩ := rfl
    rw [hfields, hlength, hhead]
    rfl
  nodes n depth hdescends := by
    obtain ⟨r, q, rfl, hn⟩ := h.valid.of_descends hdescends
    exact hn.arranged
  kinds n depth b c hdescends hchild := by
    obtain ⟨r, q, rfl, stem, hholds, -⟩ := h.valid.of_descends hdescends
    exact (hholds.valid_of_load_inner hchild).kind_least
  size := h.length_leaves.symm
  keys := h.valid.nodup_keys

namespace TreeScript

theorem exec_represents (ops : List (Op V)) {st : State V} {m : Dictionary V}
    (h : st.tree.Represents m) : ∃ m', (exec st ops).tree.Represents m' := by
  induction ops generalizing st m with
  | nil => exact ⟨m, h⟩
  | cons op ops ih => exact ih (State.step_represents h op).1

/-- However a tree was changed before, starting empty, it is arranged. -/
theorem tree_arranged (ops : List (Op V)) : (exec (start : State V) ops).tree.Arranged := by
  have hstart : (start : State V).tree.Represents ∅ := Tree.Represents.empty
  obtain ⟨m, h⟩ := exec_represents ops hstart
  exact h.arranged

end TreeScript

end RadixStore
