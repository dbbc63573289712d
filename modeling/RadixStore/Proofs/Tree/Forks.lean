import Mathlib
import RadixStore.Proofs.Tree.Arrangement
import RadixStore.Proofs.Tree.Reach

/-!
# Where the keys of a set part

The keys of a set part at a byte string when the string is all that the keys beginning with it have in
common, and there are two of these at least. The inner nodes of a tree, the root apart, stand exactly
where the stored keys part: the path to a node and its stem are such a string, and every such string
but the empty one is that of one node. What else a node says is known from the keys as well: its
terminal, the bytes of its children, and with their number its kind.
-/

namespace RadixStore

variable {V : Type}

namespace Key

variable {K : Set Key} {p q r : Key}

/-- The keys of `K` part at `p`: two of them at least begin with `p`, and nothing longer is common to
    all that do. -/
structure PartAt (K : Set Key) (p : Key) : Prop where
  two : ∃ k ∈ K, ∃ l ∈ K, k ≠ l ∧ p <+: k ∧ p <+: l
  longest : ∀ r, (∀ k ∈ K, p <+: k → r <+: k) → r <+: p

/-- The keys of `K` that begin with `p`. -/
def below (K : Set Key) (p : Key) : Set Key :=
  {k | k ∈ K ∧ p <+: k}

/-- The bytes that follow `p` in keys of `K`. -/
def followers (K : Set Key) (p : Key) : Set UInt8 :=
  {b | ∃ k ∈ K, p ++ [b] <+: k}

theorem below_nil (K : Set Key) : below K [] = K := by
  ext k
  exact and_iff_left List.nil_prefix

theorem exists_byte_of_prefix (h : p <+: r) (hne : p ≠ r) : ∃ b, p ++ [b] <+: r := by
  obtain ⟨rest, rfl⟩ := h
  cases rest with
  | nil => exact absurd (List.append_nil p).symm hne
  | cons b rest => exact ⟨b, rest, by simp⟩

theorem byte_eq_of_prefix {a b : UInt8} (ha : p ++ [a] <+: r) (hb : p ++ [b] <+: r) : a = b := by
  have h := (Edge.ofKey_eq_byte_of_prefix ha).symm.trans (Edge.ofKey_eq_byte_of_prefix hb)
  cases h
  rfl

end Key

/-! ### The keys below a node -/

/-- The keys of the leaves below a node. -/
def Node.keys (c : Node V) : Set Key :=
  {k | ∃ v, c.Has ⟨k, v⟩}

theorem Node.mem_keys_of_has {c : Node V} {l : Leaf V} (h : c.Has l) : l.key ∈ c.keys :=
  ⟨l.value, h⟩

theorem Node.Valid.exists_has {c : Node V} {path : Key} (hc : c.Valid path) : ∃ l, c.Has l := by
  cases c with
  | leaf l => exact ⟨l, .leaf l⟩
  | inner n =>
    obtain ⟨l, -, hl⟩ := hc.exists_minLeaf n rfl
    exact ⟨l, hl⟩

theorem Node.Under.exists_has {c : Node V} {here : Key} {edge : Edge} (hc : c.Under here edge) :
    ∃ l, c.Has l := by
  cases edge with
  | terminal =>
    obtain ⟨l, rfl, -⟩ := hc
    exact ⟨l, .leaf l⟩
  | byte b =>
    have hc : c.Valid (here ++ [b]) := hc
    exact hc.exists_has

namespace Branch

variable {n m k : Inner V} {isRoot : Bool} {path stem p q r : Key} {K : Set Key}

/-- Below a child stand the keys that go on with its byte. -/
theorem Holds.keys_child (hn : n.Holds path stem) (hK : (Node.inner n).keys = Key.below K path)
    {b : UInt8} {c : Node V} (hload : n.load (.byte b) = some c) :
    c.keys = Key.below K (path ++ stem ++ [b]) := by
  have hpath : path <+: path ++ stem ++ [b] :=
    (List.prefix_append path stem).trans (List.prefix_append _ [b])
  ext key
  constructor
  · rintro ⟨v, hv⟩
    have hpre := Node.Valid.prefix_of_has (hn.under (.byte b) c hload) hv
    have hkey : key ∈ (Node.inner n).keys := ⟨v, Node.Has.inner hload hv⟩
    rw [hK] at hkey
    exact ⟨hkey.1, hpre⟩
  · rintro ⟨hmem, hpre⟩
    have hkey : key ∈ (Node.inner n).keys := by
      rw [hK]
      exact ⟨hmem, hpath.trans hpre⟩
    obtain ⟨v, hv⟩ := hkey
    exact ⟨v, hn.has_of_edge hv (Edge.ofKey_eq_byte_of_prefix hpre) hload⟩

/-- An edge leads somewhere when a key follows it. -/
theorem Holds.exists_load_iff (hn : n.Holds path stem) (hK : (Node.inner n).keys = Key.below K path)
    {edge : Edge} : (n.load edge).isSome ↔
      ∃ key ∈ K, path ++ stem <+: key ∧ Edge.ofKey key (path ++ stem).length = edge := by
  constructor
  · intro h
    obtain ⟨c, hload⟩ := Option.isSome_iff_exists.1 h
    obtain ⟨l, hl⟩ := (hn.under edge c hload).exists_has
    have hkey := Node.mem_keys_of_has (Node.Has.inner hload hl)
    rw [hK] at hkey
    exact ⟨l.key, hkey.1, (hn.under edge c hload).edge_of_has hl⟩
  · rintro ⟨key, hmem, hpre, rfl⟩
    have hkey : key ∈ (Node.inner n).keys := by
      rw [hK]
      exact ⟨hmem, (List.prefix_append path stem).trans hpre⟩
    obtain ⟨v, hv⟩ := hkey
    obtain ⟨-, c, hload, -⟩ := hn.has_iff.1 hv
    rw [hload]
    rfl

theorem Holds.terminal_iff (hn : n.Holds path stem) (hK : (Node.inner n).keys = Key.below K path) :
    n.terminal.isSome ↔ path ++ stem ∈ K := by
  rw [isSome_terminal, hn.exists_load_iff hK]
  constructor
  · rintro ⟨key, hmem, hpre, hedge⟩
    rw [← Edge.eq_of_ofKey_eq_terminal hpre hedge]
    exact hmem
  · intro hmem
    exact ⟨_, hmem, List.prefix_refl _, Edge.ofKey_append_nil _⟩

theorem Holds.child_iff (hn : n.Holds path stem) (hK : (Node.inner n).keys = Key.below K path)
    (b : UInt8) : (n.body.child? b).isSome ↔ b ∈ Key.followers K (path ++ stem) := by
  rw [← load_byte, hn.exists_load_iff hK]
  constructor
  · rintro ⟨key, hmem, hpre, hedge⟩
    exact ⟨key, hmem, Edge.prefix_of_ofKey_eq_byte hpre hedge⟩
  · rintro ⟨key, hmem, hpre⟩
    exact ⟨key, hmem, (List.prefix_append _ [b]).trans hpre, Edge.ofKey_eq_byte_of_prefix hpre⟩

/-- A node has as many children as bytes follow what it covers. -/
theorem Holds.count_eq (hn : n.Holds path stem) (hK : (Node.inner n).keys = Key.below K path) :
    n.count = (Key.followers K (path ++ stem)).ncard := by
  have hnodup : (n.body.toList.map Prod.fst).Nodup := by
    refine List.Pairwise.imp ?_ (List.pairwise_map.2 hn.sound.toList_ascending)
    intro b c hlt heq
    exact UInt8.lt_irrefl b (heq ▸ hlt)
  have hset : Key.followers K (path ++ stem) = ↑(n.body.toList.map Prod.fst).toFinset := by
    ext b
    rw [← hn.child_iff hK, Finset.mem_coe, List.mem_toFinset, List.mem_map, Option.isSome_iff_exists]
    constructor
    · rintro ⟨c, hc⟩
      exact ⟨(b, c), hn.sound.mem_toList.2 hc, rfl⟩
    · rintro ⟨⟨b, c⟩, hmem, rfl⟩
      exact ⟨c, hn.sound.mem_toList.1 hmem⟩
  rw [hset, Set.ncard_coe_finset, List.toFinset_card_of_nodup hnodup, List.length_map]
  exact hn.sound.length_toList.symm

/-! ### Keys part where nodes stand -/

/-- Two entries stand on different edges. -/
theorem exists_two_loads (hn : n.body.Sound) (htwo : 2 ≤ n.entryCount) :
    ∃ e₁ e₂ c₁ c₂, e₁ ≠ e₂ ∧ n.load e₁ = some c₁ ∧ n.load e₂ = some c₂ := by
  rw [← length_entries hn] at htwo
  have hascend := entries_ascending hn
  have hmem : ∀ e ∈ n.entries, n.load e.1 = some e.2 := fun e he => (mem_entries hn).1 he
  match hlist : n.entries, htwo with
  | x :: y :: rest, _ =>
    rw [hlist] at hascend hmem
    have hlt := (List.pairwise_cons.1 hascend).1 y (by simp)
    refine ⟨x.1, y.1, x.2, y.2, ?_, hmem x (by simp), hmem y (by simp)⟩
    intro heq
    rw [heq] at hlt
    exact lt_irrefl _ hlt

theorem Holds.partAt (hn : n.Holds path stem) (htwo : 2 ≤ n.entryCount)
    (hK : (Node.inner n).keys = Key.below K path) : Key.PartAt K (path ++ stem) := by
  obtain ⟨e₁, e₂, c₁, c₂, hne, hload₁, hload₂⟩ := exists_two_loads hn.sound htwo
  obtain ⟨l₁, hl₁⟩ := (hn.under e₁ c₁ hload₁).exists_has
  obtain ⟨l₂, hl₂⟩ := (hn.under e₂ c₂ hload₂).exists_has
  obtain ⟨hpre₁, hedge₁⟩ := (hn.under e₁ c₁ hload₁).edge_of_has hl₁
  obtain ⟨hpre₂, hedge₂⟩ := (hn.under e₂ c₂ hload₂).edge_of_has hl₂
  have hmem₁ := Node.mem_keys_of_has (Node.Has.inner hload₁ hl₁)
  have hmem₂ := Node.mem_keys_of_has (Node.Has.inner hload₂ hl₂)
  rw [hK] at hmem₁ hmem₂
  refine ⟨⟨l₁.key, hmem₁.1, l₂.key, hmem₂.1, ?_, hpre₁, hpre₂⟩, ?_⟩
  · intro heq
    exact hne (by rw [← hedge₁, ← hedge₂, heq])
  · intro r hr
    have hr₁ := hr l₁.key hmem₁.1 hpre₁
    have hr₂ := hr l₂.key hmem₂.1 hpre₂
    rcases List.prefix_or_prefix_of_prefix hr₁ hpre₁ with h | h
    · exact h
    · -- if `r` were longer, both keys would follow its next byte
      by_contra hnot
      obtain ⟨b, hb⟩ := Key.exists_byte_of_prefix h (fun heq => hnot (heq ▸ List.prefix_refl r))
      have hbyte₁ := Edge.ofKey_eq_byte_of_prefix (hb.trans hr₁)
      have hbyte₂ := Edge.ofKey_eq_byte_of_prefix (hb.trans hr₂)
      exact hne (by rw [← hedge₁, ← hedge₂, hbyte₁, hbyte₂])

/-- Where keys part below a node, they part no higher than where its stem ends. -/
theorem Holds.prefix_of_partAt (hn : n.Holds path stem)
    (hK : (Node.inner n).keys = Key.below K path) (hpath : path <+: p) (hp : Key.PartAt K p) :
    path ++ stem <+: p := by
  refine hp.longest _ fun key hmem hpre => ?_
  have hkey : key ∈ (Node.inner n).keys := by
    rw [hK]
    exact ⟨hmem, hpath.trans hpre⟩
  obtain ⟨v, hv⟩ := hkey
  exact hn.prefix_of_has hv

end Branch

/-- Below a leaf no keys part. -/
theorem Node.not_partAt_of_leaf {l : Leaf V} {path p : Key} {K : Set Key}
    (hK : (Node.leaf l).keys = Key.below K path) (hpath : path <+: p) : ¬ Key.PartAt K p := by
  intro hp
  have heq : ∀ key ∈ K, p <+: key → key = l.key := by
    intro key hmem hpre
    have hkey : key ∈ (Node.leaf l).keys := by
      rw [hK]
      exact ⟨hmem, hpath.trans hpre⟩
    obtain ⟨v, hv⟩ := hkey
    exact congrArg Leaf.key (Node.has_leaf_iff.1 hv)
  obtain ⟨a, ha, b, hb, hne, hpa, hpb⟩ := hp.two
  exact hne ((heq a ha hpa).trans (heq b hb hpb).symm)

namespace Branch

variable {n m m' : Inner V} {isRoot : Bool} {path stem p q q' : Key} {K : Set Key}

theorem Reaches.keys (h : n.Reaches path m q) (hn : n.Valid isRoot path)
    (hK : (Node.inner n).keys = Key.below K path) : (Node.inner m).keys = Key.below K q := by
  induction h generalizing isRoot with
  | here => exact hK
  | child hstem hload _ ih =>
    have hholds := hn.holds_of_fullStem hstem
    exact ih (hholds.valid_of_load_inner hload) (hholds.keys_child hK hload)

theorem Reaches.valid_inner (h : n.Reaches path m q) (hn : n.Valid false path) :
    m.Valid false q := by
  induction h with
  | here => exact hn
  | child hstem hload _ ih => exact ih ((hn.holds_of_fullStem hstem).valid_of_load_inner hload)

/-- A node that is reached further down is not the root. -/
theorem Reaches.valid_of_ne (h : n.Reaches path m q) (hn : n.Valid isRoot path) (hne : q ≠ path) :
    m.Valid false q := by
  cases h with
  | here => exact absurd rfl hne
  | child hstem hload hreach =>
    exact hreach.valid_inner ((hn.holds_of_fullStem hstem).valid_of_load_inner hload)

theorem Reaches.prefix_covered (h : n.Reaches path m q) : path <+: m.covered q :=
  h.isPrefix.trans (Branch.prefix_covered m q)

/-- No two nodes cover the same bytes. -/
theorem Reaches.eq_of_covered (h : n.Reaches path m q) (h' : n.Reaches path m' q')
    (hcovered : m.covered q = m'.covered q') : m = m' ∧ q = q' := by
  induction h with
  | here =>
    cases h' with
    | here => exact ⟨rfl, rfl⟩
    | child hstem _ hreach =>
      have hle := hreach.prefix_covered.length_le
      rw [← hcovered, covered_of_fullStem hstem, length_path_append_byte, List.length_append] at hle
      omega
  | @child n c m path stem q b hstem hload hreach ih =>
    cases h' with
    | here =>
      have hle := hreach.prefix_covered.length_le
      rw [hcovered, covered_of_fullStem hstem, length_path_append_byte, List.length_append] at hle
      omega
    | @child _ c' _ _ stem' _ b' hstem' hload' hreach' =>
      rw [hstem] at hstem'
      cases hstem'
      have hb := Key.byte_eq_of_prefix hreach.prefix_covered (hcovered ▸ hreach'.prefix_covered)
      subst hb
      rw [hload] at hload'
      cases hload'
      exact ih hreach' hcovered

/-- Where keys part below a node, a node stands. -/
theorem Valid.exists_reaches_of_partAt {n : Inner V} {isRoot : Bool} {path stem : Key}
    (hn : n.Valid isRoot path) (hK : (Node.inner n).keys = Key.below K path)
    (hstem : n.fullStem path.length = .ok stem) (hpre : path ++ stem <+: p)
    (hp : Key.PartAt K p) : ∃ m q, n.Reaches path m q ∧ m.covered q = p := by
  have hholds := hn.holds_of_fullStem hstem
  by_cases heq : path ++ stem = p
  · exact ⟨n, path, .here, (covered_of_fullStem hstem).trans heq⟩
  · obtain ⟨b, hb⟩ := Key.exists_byte_of_prefix hpre heq
    obtain ⟨key, hkey, -, -, -, hpkey, -⟩ := hp.two
    obtain ⟨c, hload⟩ := Option.isSome_iff_exists.1
      ((hholds.child_iff hK b).2 ⟨key, hkey, hb.trans hpkey⟩)
    have hcK := hholds.keys_child hK hload
    cases c with
    | leaf l => exact absurd hp (Node.not_partAt_of_leaf hcK hb)
    | inner c =>
      have hsize := sizeOf_lt_of_mem_body (hholds.sound.mem_toList.2 hload)
      have hc := hholds.valid_of_load_inner hload
      obtain ⟨below, hcholds, hcstem⟩ := hc.exists_stem
      obtain ⟨m, q, hreach, hcovered⟩ := Valid.exists_reaches_of_partAt hc hcK hcstem
        (hcholds.prefix_of_partAt hcK hb hp) hp
      exact ⟨m, q, .child hstem hload hreach, hcovered⟩
termination_by sizeOf n

end Branch

/-! ### The nodes of a tree -/

namespace Tree

variable {t : Tree V}

/-- The keys that a tree stores. -/
def keys (t : Tree V) : Finset Key :=
  (t.leaves.map Leaf.key).toFinset

theorem Valid.mem_keys_iff (ht : t.Valid) {key : Key} :
    key ∈ t.keys ↔ ∃ v, (Node.inner t.root).Has ⟨key, v⟩ := by
  unfold keys
  rw [List.mem_toFinset, List.mem_map]
  constructor
  · rintro ⟨l, hl, rfl⟩
    exact ⟨l.value, (Branch.Valid.mem_leaves_iff ht l).1 hl⟩
  · rintro ⟨v, hv⟩
    exact ⟨⟨key, v⟩, (Branch.Valid.mem_leaves_iff ht _).2 hv, rfl⟩

theorem Valid.keys_root (ht : t.Valid) : (Node.inner t.root).keys = Key.below t.keys [] := by
  ext key
  rw [Key.below_nil, Finset.mem_coe, ht.mem_keys_iff]
  rfl

/-- The inner nodes of the tree other than the root, each with the path on which it is reached. -/
def places (t : Tree V) : Set (Inner V × Key) :=
  {x | t.root.Reaches [] x.1 x.2 ∧ x.2 ≠ []}

/-- The byte strings other than the empty one at which the stored keys part. -/
def forks (t : Tree V) : Set Key :=
  {p | p ≠ [] ∧ Key.PartAt t.keys p}

theorem Valid.covered_root (ht : t.Valid) : t.root.covered [] = [] := by
  obtain ⟨stem, hholds, hshape⟩ := ht
  rw [Branch.covered_of_fullStem (hholds.fullStem hshape), hshape.1]
  rfl

/-- The nodes other than the root stand where the stored keys part. -/
theorem Valid.bijOn_covered (ht : t.Valid) :
    Set.BijOn (fun x : Inner V × Key => x.1.covered x.2) t.places t.forks := by
  refine ⟨?_, ?_, ?_⟩
  · rintro ⟨n, q⟩ ⟨hreach, hne⟩
    have hn := hreach.valid_of_ne ht hne
    obtain ⟨stem, hholds, hshape⟩ := hn
    have hcovered := Branch.covered_of_fullStem (hholds.fullStem hshape)
    refine ⟨?_, ?_⟩
    · show n.covered q ≠ []
      intro hnil
      have hpre := Branch.prefix_covered n q
      rw [hnil] at hpre
      exact hne (List.prefix_nil.1 hpre)
    · show Key.PartAt t.keys (n.covered q)
      rw [hcovered]
      exact hholds.partAt hshape.1 (hreach.keys ht ht.keys_root)
  · rintro ⟨n, q⟩ ⟨hreach, -⟩ ⟨n', q'⟩ ⟨hreach', -⟩ hcovered
    obtain ⟨hnode, hpath⟩ := Branch.Reaches.eq_of_covered hreach hreach' hcovered
    exact Prod.ext hnode hpath
  · rintro p ⟨hne, hp⟩
    obtain ⟨stem, hholds, hstem⟩ := Branch.Valid.exists_stem ht
    have hpre := hholds.prefix_of_partAt ht.keys_root List.nil_prefix hp
    obtain ⟨n, q, hreach, hcovered⟩ :=
      Branch.Valid.exists_reaches_of_partAt ht ht.keys_root hstem hpre hp
    refine ⟨(n, q), ⟨hreach, ?_⟩, hcovered⟩
    intro hq
    have hq : q = [] := hq
    subst hq
    rw [hreach.eq_of_path .here, ht.covered_root] at hcovered
    exact hne hcovered.symm

end Tree

end RadixStore
