import Mathlib
import RadixStore.Proofs.Tree.Leaves
import RadixStore.Proofs.Tree.Forks

/-!
# How many leaves and how deep

The shape of a tree counts a leaf for every stored key. Its longest path is known from the keys as
well: on the way to a key stands the root, then one node for every place at which the keys part on
this way, and then the leaf.
-/

namespace RadixStore

variable {V : Type}

/-! ### What the shape sums up -/

namespace Shape

/-- What adds up when two shapes stand side by side adds up over all that do. -/
theorem sum_foldr_beside (w : Shape → Nat) (hw : ∀ s t, w (s.beside t) = w s + w t)
    (ss : List Shape) (base : Shape) : w (ss.foldr beside base) = (ss.map w).sum + w base := by
  induction ss with
  | nil => simp
  | cons s ss ih => rw [List.foldr_cons, hw, ih, List.map_cons, List.sum_cons, Nat.add_assoc]

/-- The longest of the paths that stand side by side. -/
theorem isGreatest_maxDepth_foldr (ss : List Shape) (base : Shape) :
    IsGreatest ({base.maxDepth} ∪ {d | ∃ s ∈ ss, s.maxDepth = d})
      (ss.foldr beside base).maxDepth := by
  induction ss with
  | nil =>
    refine ⟨Or.inl rfl, ?_⟩
    rintro d (rfl | ⟨s, hs, -⟩)
    · exact Nat.le_refl _
    · exact absurd hs List.not_mem_nil
  | cons s ss ih =>
    have hmax : ((s :: ss).foldr beside base).maxDepth =
        max s.maxDepth (ss.foldr beside base).maxDepth := rfl
    rw [hmax]
    refine ⟨?_, ?_⟩
    · rcases max_choice s.maxDepth (ss.foldr beside base).maxDepth with h | h
      · rw [h]
        exact Or.inr ⟨s, List.mem_cons_self, rfl⟩
      · rw [h]
        refine ih.1.imp id ?_
        rintro ⟨s', hs', heq⟩
        exact ⟨s', List.mem_cons_of_mem s hs', heq⟩
    · rintro d (rfl | ⟨s', hs', rfl⟩)
      · exact (ih.2 (Or.inl rfl)).trans (le_max_right _ _)
      · rcases List.mem_cons.1 hs' with rfl | hs'
        · exact le_max_left _ _
        · exact (ih.2 (Or.inr ⟨s', hs', rfl⟩)).trans (le_max_right _ _)

end Shape

/-- The shape counts the leaves. -/
theorem Node.leaves_shape (c : Node V) : c.shape.leaves = c.leaves.length := by
  cases c with
  | leaf l =>
    rw [Node.shape, Node.leaves]
    rfl
  | inner n =>
    have hchildren : ∀ e ∈ n.body.toList, e.2.shape.leaves = e.2.leaves.length := by
      intro e he
      have hlt := Body.sizeOf_lt_of_mem he
      exact Node.leaves_shape e.2
    have hterminal : (if n.terminal.isSome then Shape.leaf else Shape.zero).leaves =
        n.terminal.toList.length := by
      cases n.terminal <;> rfl
    have hunder : ∀ (s : Shape) (k : Kind), (s.under k).leaves = s.leaves := fun _ _ => rfl
    rw [Node.shape_inner, hunder, Shape.sum_foldr_beside Shape.leaves fun _ _ => rfl, hterminal,
      Node.leaves_inner, List.length_append, List.length_flatMap, List.map_map, Nat.add_comm]
    congr 2
    exact List.map_congr_left hchildren
termination_by sizeOf c
decreasing_by
  obtain ⟨id, lock, stem, terminal, body⟩ := n
  simp only [Node.inner.sizeOf_spec, Branch.mk.sizeOf_spec] at hlt ⊢
  omega

namespace Branch

variable {n : Inner V} {isRoot : Bool} {path stem : Key} {K : Set Key}

/-- The longest path downwards from an inner node goes through one of its entries, if it has any. -/
theorem isGreatest_maxDepth (hn : n.body.Sound) :
    IsGreatest ({1} ∪ {d | ∃ edge c, n.load edge = some c ∧ c.shape.maxDepth + 1 = d})
      (Node.inner n).shape.maxDepth := by
  have hfold := Shape.isGreatest_maxDepth_foldr (n.body.toList.map fun e => e.2.shape)
    (if n.terminal.isSome then Shape.leaf else Shape.zero)
  have hdepth : (Node.inner n).shape.maxDepth =
      ((n.body.toList.map fun e => e.2.shape).foldr Shape.beside
        (if n.terminal.isSome then Shape.leaf else Shape.zero)).maxDepth + 1 := by
    rw [Node.shape_inner]
    rfl
  rw [hdepth]
  refine ⟨?_, ?_⟩
  · rcases hfold.1 with h | ⟨s, hs, h⟩
    · rw [h]
      cases hterminal : n.terminal with
      | none => exact Or.inl rfl
      | some l =>
        refine Or.inr ⟨.terminal, .leaf l, terminal_eq_some_iff.1 hterminal, ?_⟩
        rw [Node.shape]
        rfl
    · obtain ⟨⟨b, c⟩, hmem, rfl⟩ := List.mem_map.1 hs
      rw [← h]
      exact Or.inr ⟨.byte b, c, hn.mem_toList.1 hmem, rfl⟩
  · rintro d (rfl | ⟨edge, c, hload, rfl⟩)
    · exact Nat.le_add_left _ _
    · refine Nat.add_le_add_right ?_ 1
      cases edge with
      | terminal =>
        obtain ⟨l, hterminal, rfl⟩ := Option.map_eq_some_iff.1 hload
        refine le_trans (le_of_eq ?_) (hfold.2 (Or.inl rfl))
        rw [hterminal, Node.shape]
        rfl
      | byte b =>
        exact hfold.2 (Or.inr ⟨c.shape, List.mem_map.2 ⟨(b, c), hn.mem_toList.2 hload, rfl⟩, rfl⟩)

/-- A path downwards is one node longer than the longest one from a child, where the length of the
    way to a key is known below every child. -/
theorem Holds.isGreatest_depth (hn : n.Holds path stem) (f : Key → Nat)
    (hchild : ∀ edge c, n.load edge = some c →
      IsGreatest {d | ∃ key ∈ c.keys, f key = d} c.shape.maxDepth) :
    IsGreatest ({1} ∪ {d | ∃ key ∈ (Node.inner n).keys, f key + 1 = d})
      (Node.inner n).shape.maxDepth := by
  have hdepth := isGreatest_maxDepth hn.sound
  refine ⟨?_, ?_⟩
  · rcases hdepth.1 with h | ⟨edge, c, hload, h⟩
    · exact Or.inl h
    · obtain ⟨key, ⟨v, hv⟩, hkey⟩ := (hchild edge c hload).1
      exact Or.inr ⟨key, ⟨v, Node.Has.inner hload hv⟩, by rw [hkey, h]⟩
  · rintro d (rfl | ⟨key, ⟨v, hv⟩, rfl⟩)
    · exact hdepth.2 (Or.inl rfl)
    · obtain ⟨edge, c, hload, hc⟩ := Node.has_inner_iff.1 hv
      have hle := (hchild edge c hload).2 ⟨key, ⟨v, hc⟩, rfl⟩
      exact (Nat.add_le_add_right hle 1).trans (hdepth.2 (Or.inr ⟨edge, c, hload, rfl⟩))

end Branch

/-! ### The places on the way to a key -/

namespace Key

variable {K : Set Key} {path stem key p : Key}

/-- The places below `path`, on the way to a key, at which keys part. -/
def partings (K : Set Key) (path key : Key) : Set Key :=
  {p | path <+: p ∧ PartAt K p ∧ p <+: key}

theorem isGreatest_congr {f g : Key → Nat} {m : Nat} (h : ∀ key ∈ K, f key = g key)
    (hf : IsGreatest {d | ∃ key ∈ K, f key = d} m) : IsGreatest {d | ∃ key ∈ K, g key = d} m := by
  have hset : {d | ∃ key ∈ K, g key = d} = {d | ∃ key ∈ K, f key = d} := by
    ext d
    exact exists_congr fun key => and_congr_right fun hkey => by rw [h key hkey]
  rw [hset]
  exact hf

theorem finite_partings (K : Set Key) (path key : Key) : (partings K path key).Finite := by
  refine (List.finite_toSet key.inits).subset ?_
  rintro p ⟨-, -, hp⟩
  exact (List.mem_inits p key).2 hp

end Key

namespace Branch

variable {n : Inner V} {path stem key : Key} {K : Set Key}

/-- On the way through a node one more place stands at which keys part than below its child. -/
theorem Holds.partings_child (hn : n.Holds path stem) (htwo : 2 ≤ n.entryCount)
    (hK : (Node.inner n).keys = Key.below K path) {b : UInt8} (hb : path ++ stem ++ [b] <+: key) :
    Key.partings K path key = {path ++ stem} ∪ Key.partings K (path ++ stem ++ [b]) key := by
  have hcovered : path ++ stem <+: key := (List.prefix_append _ [b]).trans hb
  ext p
  constructor
  · rintro ⟨hpath, hp, hpkey⟩
    have hpre := hn.prefix_of_partAt hK hpath hp
    by_cases heq : path ++ stem = p
    · exact Or.inl heq.symm
    · obtain ⟨a, ha⟩ := Key.exists_byte_of_prefix hpre heq
      have hab := Key.byte_eq_of_prefix (ha.trans hpkey) hb
      exact Or.inr ⟨hab ▸ ha, hp, hpkey⟩
  · rintro (rfl | ⟨hpath, hp, hpkey⟩)
    · exact ⟨List.prefix_append path stem, hn.partAt htwo hK, hcovered⟩
    · have hpre := (List.prefix_append (path ++ stem) [b]).trans hpath
      exact ⟨(List.prefix_append path stem).trans hpre, hp, hpkey⟩

theorem Holds.ncard_partings_child (hn : n.Holds path stem) (htwo : 2 ≤ n.entryCount)
    (hK : (Node.inner n).keys = Key.below K path) {b : UInt8} (hb : path ++ stem ++ [b] <+: key) :
    (Key.partings K path key).ncard = (Key.partings K (path ++ stem ++ [b]) key).ncard + 1 := by
  rw [hn.partings_child htwo hK hb, Set.singleton_union]
  refine Set.ncard_insert_of_notMem ?_ (Key.finite_partings K _ key)
  rintro ⟨hpre, -, -⟩
  have hle := hpre.length_le
  rw [List.length_append, List.length_singleton] at hle
  omega

theorem Holds.partings_terminal (hn : n.Holds path stem) (htwo : 2 ≤ n.entryCount)
    (hK : (Node.inner n).keys = Key.below K path) :
    Key.partings K path (path ++ stem) = {path ++ stem} := by
  ext p
  constructor
  · rintro ⟨hpath, hp, hpkey⟩
    have hpre := hn.prefix_of_partAt hK hpath hp
    exact hpkey.eq_of_length (hpkey.length_le.antisymm hpre.length_le)
  · rintro rfl
    exact ⟨List.prefix_append path stem, hn.partAt htwo hK, List.prefix_refl _⟩

end Branch

theorem Node.keys_leaf (l : Leaf V) : (Node.leaf l).keys = {l.key} := by
  ext key
  constructor
  · rintro ⟨v, hv⟩
    exact congrArg Leaf.key (Node.has_leaf_iff.1 hv)
  · rintro rfl
    exact Node.mem_keys_of_has (.leaf l)

theorem Node.isGreatest_depth_leaf (l : Leaf V) {f : Key → Nat} (hf : f l.key = 1) :
    IsGreatest {d | ∃ key ∈ (Node.leaf l).keys, f key = d} (Node.leaf l).shape.maxDepth := by
  rw [Node.keys_leaf, Node.shape]
  refine ⟨⟨l.key, rfl, hf⟩, ?_⟩
  rintro d ⟨key, rfl, rfl⟩
  exact le_of_eq hf

/-- The longest path from a node goes to the key on whose way the keys part most often. -/
theorem Node.Valid.isGreatest_depth {c : Node V} {path : Key} {K : Set Key} (hc : c.Valid path)
    (hcK : c.keys = Key.below K path) :
    IsGreatest {d | ∃ key ∈ c.keys, (Key.partings K path key).ncard + 1 = d} c.shape.maxDepth := by
  induction hc with
  | @leaf path l _ =>
    refine Node.isGreatest_depth_leaf l ?_
    have hnone : Key.partings K path l.key = ∅ := by
      ext p
      refine ⟨?_, False.elim⟩
      rintro ⟨hpath, hp, -⟩
      exact Node.not_partAt_of_leaf hcK hpath hp
    rw [hnone, Set.ncard_empty]
  | @inner path stem n hfits htwo hleast hterminal hchild ih =>
    have hn := hfits.holds hterminal hchild
    have hedges : ∀ edge c, n.load edge = some c →
        IsGreatest {d | ∃ key ∈ c.keys, (Key.partings K path key).ncard = d} c.shape.maxDepth := by
      intro edge c hload
      cases edge with
      | terminal =>
        obtain ⟨l, rfl, hkey⟩ := hn.under .terminal c hload
        refine Node.isGreatest_depth_leaf l ?_
        rw [hkey, hn.partings_terminal htwo hcK, Set.ncard_singleton]
      | byte b =>
        have hck := hn.keys_child hcK hload
        refine Key.isGreatest_congr (fun key hkey => ?_) (ih b c hload hck)
        rw [hck] at hkey
        exact (hn.ncard_partings_child htwo hcK hkey.2).symm
    have hdepth := hn.isGreatest_depth _ hedges
    refine ⟨?_, fun d hd => hdepth.2 (Or.inr hd)⟩
    rcases hdepth.1 with h | h
    · -- some key stands below the node, and its path is no longer
      have hvalid : (Node.inner n).Valid path := .inner hfits htwo hleast hterminal hchild
      obtain ⟨l, hl⟩ := hvalid.exists_has
      have hkey := Node.mem_keys_of_has hl
      have hle := hdepth.2 (Or.inr ⟨l.key, hkey, rfl⟩)
      have hone : (Node.inner n).shape.maxDepth = 1 := h
      exact ⟨l.key, hkey, by omega⟩
    · exact h

namespace Tree

variable {t : Tree V}

/-- The shape of a tree counts its keys. -/
theorem Valid.leaves_shape (ht : t.Valid) : t.shape.leaves = t.keys.card := by
  unfold shape keys
  rw [Node.leaves_shape, List.toFinset_card_of_nodup ht.nodup_keys, List.length_map]
  rfl

/-- Where the keys part below a byte, they part away from the root. -/
theorem partings_byte {key : Key} {b : UInt8} (hb : [b] <+: key) :
    Key.partings t.keys [b] key = {p | p ∈ t.forks ∧ p <+: key} := by
  ext p
  constructor
  · rintro ⟨hpre, hp, hpkey⟩
    refine ⟨⟨?_, hp⟩, hpkey⟩
    rintro rfl
    exact absurd (List.prefix_nil.1 hpre) (List.cons_ne_nil _ _)
  · rintro ⟨⟨hne, hp⟩, hpkey⟩
    obtain ⟨a, ha⟩ := Key.exists_byte_of_prefix List.nil_prefix (Ne.symm hne)
    have hab : a = b := Key.byte_eq_of_prefix (ha.trans hpkey) hb
    subst hab
    exact ⟨ha, hp, hpkey⟩

/-- The longest path of a tree goes to the key on whose way the stored keys part most often. An
    empty tree is its root alone. -/
theorem Valid.isGreatest_depth (ht : t.Valid) :
    IsGreatest ({1} ∪ {d | ∃ key ∈ t.keys, {p | p ∈ t.forks ∧ p <+: key}.ncard + 2 = d})
      t.shape.maxDepth := by
  have hK := ht.keys_root
  obtain ⟨stem, hn, hshape⟩ := id ht
  have hstem : stem = [] := hshape.1
  subst hstem
  have hedges : ∀ edge c, t.root.load edge = some c →
      IsGreatest {d | ∃ key ∈ c.keys, {p | p ∈ t.forks ∧ p <+: key}.ncard + 1 = d}
        c.shape.maxDepth := by
    intro edge c hload
    cases edge with
    | terminal =>
      obtain ⟨l, rfl, hkey⟩ := hn.under .terminal c hload
      refine Node.isGreatest_depth_leaf l ?_
      have hnone : {p | p ∈ t.forks ∧ p <+: l.key} = ∅ := by
        ext p
        refine ⟨?_, False.elim⟩
        rintro ⟨⟨hne, -⟩, hpkey⟩
        rw [hkey] at hpkey
        exact hne (List.prefix_nil.1 hpkey)
      rw [hnone, Set.ncard_empty]
    | byte b =>
      have hck := hn.keys_child hK hload
      have hvalid : c.Valid [b] := hn.under (.byte b) c hload
      refine Key.isGreatest_congr (fun key hkey => ?_) (hvalid.isGreatest_depth hck)
      rw [hck] at hkey
      rw [partings_byte hkey.2]
  have hkeys : (Node.inner t.root).keys = t.keys := by rw [hK, Key.below_nil]
  have hdepth := hn.isGreatest_depth _ hedges
  rw [hkeys] at hdepth
  exact hdepth

end Tree

end RadixStore
