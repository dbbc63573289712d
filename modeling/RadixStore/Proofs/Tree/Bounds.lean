import Mathlib
import RadixStore.Proofs.Tree.Arrangement
import RadixStore.Proofs.Tree.Depth

/-!
# How large and how deep a tree gets

A node other than the root has two entries at least, so that there are fewer inner nodes below it, itself
included, than leaves; a tree that stores a key has no more inner nodes than keys. On the way from one
inner node to the next a byte of the key is used up, so that no way to a key is longer than the key, the
root and the leaf apart. A tree without keys is its root alone.
-/

namespace RadixStore

variable {V : Type}

/-! ### The nodes on the way to a leaf -/

/-- The nodes on the way from a node down to the leaf `l`, both ends counted. -/
inductive Node.Descent : Node V → List (Node V) → Leaf V → Prop
  | leaf (l : Leaf V) : Descent (.leaf l) [.leaf l] l
  | inner {n : Inner V} {edge : Edge} {c : Node V} {nodes : List (Node V)} {l : Leaf V} :
      n.load edge = some c → Descent c nodes l → Descent (.inner n) (.inner n :: nodes) l

namespace Node

variable {c : Node V} {nodes nodes' : List (Node V)} {l : Leaf V}

theorem Has.exists_descent (h : c.Has l) : ∃ nodes, c.Descent nodes l := by
  induction h with
  | leaf l => exact ⟨[.leaf l], .leaf l⟩
  | @inner n edge c l hload _ ih =>
    obtain ⟨nodes, hnodes⟩ := ih
    exact ⟨.inner n :: nodes, .inner hload hnodes⟩

theorem Descent.has (h : c.Descent nodes l) : c.Has l := by
  induction h with
  | leaf l => exact .leaf l
  | inner hload _ ih => exact .inner hload ih

end Node

namespace Branch

variable {n : Inner V} {isRoot : Bool} {path : Key} {nodes nodes' : List (Node V)} {l : Leaf V}

/-- There is only one way to a leaf. -/
theorem Valid.descent_unique (hn : n.Valid isRoot path) (h : (Node.inner n).Descent nodes l)
    (h' : (Node.inner n).Descent nodes' l) : nodes' = nodes := by
  generalize hc : Node.inner n = c at h h'
  induction h generalizing n isRoot path nodes' with
  | leaf l => cases hc
  | @inner m edge c nodes l hload hbelow ih =>
    cases hc
    cases h' with
    | @inner _ edge' c' nodes' _ hload' hbelow' =>
      obtain ⟨stem, hholds, -⟩ := hn
      obtain ⟨-, hedge⟩ := (hholds.under edge c hload).edge_of_has hbelow.has
      obtain ⟨-, hedge'⟩ := (hholds.under edge' c' hload').edge_of_has hbelow'.has
      have hsame : edge' = edge := hedge'.symm.trans hedge
      subst hsame
      rw [hload] at hload'
      cases hload'
      refine congrArg (Node.inner m :: ·) ?_
      cases c with
      | leaf k =>
        cases hbelow
        cases hbelow'
        rfl
      | inner m =>
        obtain ⟨b, rfl⟩ := edge_of_load_inner hload
        exact ih (hholds.valid_of_load_inner hload) rfl hbelow'

/-- Every inner node on the way to a leaf uses up a byte of the key that the one before it did not. -/
theorem Valid.descent_length (hn : n.Valid isRoot path) (h : (Node.inner n).Descent nodes l) :
    nodes.length + path.length ≤ l.key.length + 2 := by
  generalize hc : Node.inner n = c at h
  induction h generalizing n isRoot path with
  | leaf l => cases hc
  | @inner m edge c nodes l hload hbelow ih =>
    cases hc
    obtain ⟨stem, hholds, -⟩ := hn
    cases c with
    | leaf k =>
      have hpre := (hholds.prefix_of_has (.inner hload hbelow.has)).length_le
      cases hbelow
      rw [List.length_append] at hpre
      simp only [List.length_cons, List.length_nil]
      omega
    | inner m =>
      obtain ⟨b, rfl⟩ := edge_of_load_inner hload
      have hle := ih (hholds.valid_of_load_inner hload) rfl
      rw [length_path_append_byte] at hle
      rw [List.length_cons]
      omega

end Branch

/-! ### The longest way -/

theorem Node.one_le_maxDepth (c : Node V) : 1 ≤ c.shape.maxDepth := by
  cases c with
  | leaf l =>
    rw [Node.shape]
    exact le_rfl
  | inner n =>
    rw [Node.shape_inner]
    exact Nat.le_add_left _ _

/-- No way down from a valid node is longer than the shape says. -/
theorem Branch.Valid.descent_le_maxDepth {n : Inner V} {isRoot : Bool} {path : Key}
    {nodes : List (Node V)} {l : Leaf V} (hn : n.Valid isRoot path)
    (h : (Node.inner n).Descent nodes l) : nodes.length ≤ (Node.inner n).shape.maxDepth := by
  generalize hc : Node.inner n = c at h
  induction h generalizing n isRoot path with
  | leaf l => cases hc
  | @inner m edge c nodes l hload hbelow ih =>
    cases hc
    obtain ⟨stem, hholds, -⟩ := hn
    refine le_trans ?_ ((isGreatest_maxDepth hholds.sound).2 (Or.inr ⟨edge, c, hload, rfl⟩))
    rw [List.length_cons]
    refine Nat.add_le_add_right ?_ 1
    cases c with
    | leaf k =>
      cases hbelow
      exact Node.one_le_maxDepth _
    | inner m =>
      obtain ⟨b, rfl⟩ := edge_of_load_inner hload
      exact ih (hholds.valid_of_load_inner hload) rfl

/-- From a node with entries one way down is as long as the shape says when from each of its children
    one is. -/
theorem Branch.exists_longest {n : Inner V} (hn : n.body.Sound) (hpos : 0 < n.entryCount)
    (hchild : ∀ edge c, n.load edge = some c →
      ∃ nodes l, c.Descent nodes l ∧ nodes.length = c.shape.maxDepth) :
    ∃ nodes l, (Node.inner n).Descent nodes l ∧
      nodes.length = (Node.inner n).shape.maxDepth := by
  have hgreatest := isGreatest_maxDepth hn
  rcases hgreatest.1 with h | ⟨edge, c, hload, h⟩
  · -- a way to a child is longer than the node alone
    obtain ⟨edge, c, hload⟩ := exists_load_of_entryCount_pos hn hpos
    have hle := hgreatest.2 (Or.inr ⟨edge, c, hload, rfl⟩)
    have hone := c.one_le_maxDepth
    have h : (Node.inner n).shape.maxDepth = 1 := h
    omega
  · obtain ⟨nodes, l, hdescent, hlength⟩ := hchild edge c hload
    exact ⟨.inner n :: nodes, l, .inner hload hdescent, by rw [List.length_cons, hlength, h]⟩

theorem Node.exists_longest_leaf (l : Leaf V) :
    ∃ nodes k, (Node.leaf l).Descent nodes k ∧ nodes.length = (Node.leaf l).shape.maxDepth := by
  refine ⟨[.leaf l], l, .leaf l, ?_⟩
  rw [Node.shape]
  rfl

theorem Node.Valid.exists_longest {c : Node V} {path : Key} (hc : c.Valid path) :
    ∃ nodes l, c.Descent nodes l ∧ nodes.length = c.shape.maxDepth := by
  induction hc with
  | leaf _ => exact Node.exists_longest_leaf _
  | @inner path stem n hfits htwo _ _ _ ih =>
    refine Branch.exists_longest hfits.sound (by omega) ?_
    intro edge c hload
    cases edge with
    | terminal =>
      obtain ⟨k, -, rfl⟩ := Option.map_eq_some_iff.1 hload
      exact Node.exists_longest_leaf k
    | byte b => exact ih b c hload

/-! ### Inner nodes and leaves -/

namespace Shape

/-- The number of inner nodes, whatever their kind. -/
def inners (s : Shape) : Nat :=
  s.node4 + s.node16 + s.node48 + s.node256

theorem inners_under (s : Shape) (k : Kind) : (s.under k).inners = s.inners + 1 := by
  cases k <;> simp [inners, under] <;> omega

theorem inners_beside (s t : Shape) : (s.beside t).inners = s.inners + t.inners := by
  simp only [inners, beside]
  omega

end Shape

namespace Branch

variable {n : Inner V}

theorem inners_shape (n : Inner V) :
    (Node.inner n).shape.inners = (n.body.toList.map fun e => e.2.shape.inners).sum + 1 := by
  have hterminal : (if n.terminal.isSome then Shape.leaf else Shape.zero).inners = 0 := by
    split <;> rfl
  rw [Node.shape_inner, Shape.inners_under, Shape.sum_foldr_beside _ Shape.inners_beside, hterminal,
    List.map_map]
  rfl

/-- When every child has more leaves below it than inner nodes, each further entry of the node stands
    for one more leaf. -/
theorem inners_add_entryCount_le (hn : n.body.Sound)
    (hchild : ∀ e ∈ n.body.toList, e.2.shape.inners < e.2.leaves.length) :
    (Node.inner n).shape.inners + n.entryCount ≤ (Node.inner n).leaves.length + 1 := by
  have hsum : (n.body.toList.map fun e => e.2.shape.inners).sum + n.count ≤
      (n.body.toList.map fun e => e.2.leaves.length).sum := by
    have hle : (n.body.toList.map fun e => e.2.shape.inners + 1).sum ≤
        (n.body.toList.map fun e => e.2.leaves.length).sum := List.sum_le_sum hchild
    rw [List.sum_map_add, List.map_const', List.sum_replicate, hn.length_toList] at hle
    simpa [count] using hle
  have hterminal : n.terminal.toList.length = if n.terminal.isSome then 1 else 0 := by
    cases n.terminal <;> rfl
  rw [inners_shape, Node.leaves_inner, List.length_append, List.length_flatMap, hterminal]
  unfold entryCount
  omega

end Branch

/-- A node other than the root has more leaves below it than inner nodes, itself included: it has two
    entries at least. -/
theorem Node.Valid.inners_lt {c : Node V} {path : Key} (hc : c.Valid path) :
    c.shape.inners < c.leaves.length := by
  induction hc with
  | leaf _ =>
    rw [Node.shape, Node.leaves]
    exact Nat.one_pos
  | @inner path stem n hfits htwo _ _ _ ih =>
    have hle := Branch.inners_add_entryCount_le hfits.sound fun e he =>
      ih e.1 e.2 (hfits.sound.mem_toList.1 he)
    omega

/-! ### Trees -/

/-- A tree is no larger and no deeper than its keys make it. -/
structure Tree.Compact (t : Tree V) : Prop where
  /-- The root is one of the inner nodes. -/
  root_inner : 1 ≤ t.shape.inners
  /-- The others are fewer than the keys. -/
  inners_le : 0 < t.size → t.shape.inners - 1 ≤ t.size - 1
  /-- There is one way to a stored key, and on it no more than two nodes more than bytes in the key. -/
  way : ∀ key v, t.get? key = some v → ∃ nodes, (Node.inner t.root).Descent nodes ⟨key, v⟩ ∧
    nodes.length ≤ key.length + 2 ∧
    ∀ nodes', (Node.inner t.root).Descent nodes' ⟨key, v⟩ → nodes' = nodes
  /-- The depth is the length of the longest of these ways, -/
  longest : 0 < t.size → IsGreatest
    {d | ∃ key v nodes, t.get? key = some v ∧ (Node.inner t.root).Descent nodes ⟨key, v⟩ ∧
      nodes.length = d} t.shape.maxDepth
  /-- and no greater than two more than the length of the longest key. -/
  depth_le : 0 < t.size → ∀ bound, (∀ key v, t.get? key = some v → key.length ≤ bound) →
    t.shape.maxDepth ≤ bound + 2
  /-- A tree without keys is its root alone. -/
  empty : t.size = 0 → t.shape = ⟨0, 0, 0, 1, 0, 1⟩

namespace Tree

variable {t : Tree V}

theorem Valid.inners_add_entryCount_le (ht : t.Valid) :
    t.shape.inners + t.root.entryCount ≤ t.leaves.length + 1 := by
  obtain ⟨stem, hholds, -⟩ := ht
  refine Branch.inners_add_entryCount_le hholds.sound ?_
  rintro ⟨b, c⟩ hmem
  have hc : c.Valid ([] ++ stem ++ [b]) :=
    hholds.under (.byte b) c (hholds.sound.mem_toList.1 hmem)
  exact hc.inners_lt

theorem one_le_inners (t : Tree V) : 1 ≤ t.shape.inners := by
  unfold shape
  rw [Branch.inners_shape]
  exact Nat.le_add_left _ _

theorem Valid.entryCount_pos (ht : t.Valid) (hpos : 0 < t.leaves.length) :
    0 < t.root.entryCount := by
  obtain ⟨l, hl⟩ := List.exists_mem_of_length_pos hpos
  obtain ⟨edge, c, hload, -⟩ := Node.has_inner_iff.1 ((Branch.Valid.mem_leaves_iff ht l).1 hl)
  obtain ⟨stem, hholds, -⟩ := ht
  rw [← Branch.length_entries hholds.sound]
  exact List.length_pos_of_mem ((Branch.mem_entries hholds.sound).2 hload)

/-- Without leaves the root has no entries, and nothing stands below it. -/
theorem Valid.shape_of_leaves_eq_nil (ht : t.Valid) (hnil : t.leaves.length = 0) :
    t.shape = ⟨0, 0, 0, 1, 0, 1⟩ := by
  have hle := ht.inners_add_entryCount_le
  have hone := t.one_le_inners
  have hnone : t.root.entryCount = 0 := by omega
  obtain ⟨stem, hholds, -, hkind⟩ := ht
  have hentries : t.root.entries = [] := by
    rw [← List.length_eq_zero_iff, Branch.length_entries hholds.sound, hnone]
  obtain ⟨hterminal, hbody⟩ := List.append_eq_nil_iff.1 hentries
  have hterminal : t.root.terminal = none := by simpa using hterminal
  have hbody : t.root.body.toList = [] := List.map_eq_nil_iff.1 hbody
  unfold shape
  rw [Node.shape_inner, hbody, hterminal, hkind]
  rfl

theorem Valid.exists_longest (ht : t.Valid) (hpos : 0 < t.leaves.length) :
    ∃ nodes l, (Node.inner t.root).Descent nodes l ∧ nodes.length = t.shape.maxDepth := by
  have hentry := ht.entryCount_pos hpos
  obtain ⟨stem, hholds, -⟩ := ht
  refine Branch.exists_longest hholds.sound hentry ?_
  intro edge c hload
  have hunder := hholds.under edge c hload
  cases edge with
  | terminal =>
    obtain ⟨l, rfl, -⟩ := hunder
    exact Node.exists_longest_leaf l
  | byte b =>
    have hc : c.Valid ([] ++ stem ++ [b]) := hunder
    exact hc.exists_longest

theorem Represents.compact {m : Dictionary V} (h : t.Represents m) : t.Compact where
  root_inner := t.one_le_inners
  inners_le hpos := by
    have hlength := h.length_leaves
    have hle := h.valid.inners_add_entryCount_le
    have hentry := h.valid.entryCount_pos (by omega)
    omega
  way key v hget := by
    obtain ⟨nodes, hdescent⟩ := (h.valid.get?_eq_some_iff.1 hget).exists_descent
    have hle := Branch.Valid.descent_length h.valid hdescent
    exact ⟨nodes, hdescent, hle, fun nodes' h' => Branch.Valid.descent_unique h.valid hdescent h'⟩
  longest hpos := by
    refine ⟨?_, ?_⟩
    · obtain ⟨nodes, l, hdescent, hlength⟩ :=
        h.valid.exists_longest (by rw [h.length_leaves]; exact hpos)
      exact ⟨l.key, l.value, nodes, h.valid.get?_eq_some_iff.2 hdescent.has, hdescent, hlength⟩
    · rintro d ⟨key, v, nodes, -, hdescent, rfl⟩
      exact Branch.Valid.descent_le_maxDepth h.valid hdescent
  depth_le hpos bound hbound := by
    obtain ⟨nodes, l, hdescent, hlength⟩ :=
      h.valid.exists_longest (by rw [h.length_leaves]; exact hpos)
    have hle := Branch.Valid.descent_length h.valid hdescent
    have hkey := hbound l.key l.value (h.valid.get?_eq_some_iff.2 hdescent.has)
    rw [List.length_nil] at hle
    omega
  empty hnone := h.valid.shape_of_leaves_eq_nil (h.length_leaves.trans hnone)

end Tree

/-- However a tree was changed before, starting empty, it is no larger and no deeper than the keys make
    it that it stores now. -/
theorem TreeScript.exec_compact (ops : List (Op V)) :
    (exec (start : State V) ops).tree.Compact := by
  have hstart : (start : State V).tree.Represents ∅ := Tree.Represents.empty
  obtain ⟨m, h⟩ := exec_represents ops hstart
  exact h.compact

end RadixStore
