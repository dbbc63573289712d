import Mathlib
import RadixStore.Proofs.Node.Map
import RadixStore.Proofs.Tree.Depth
import RadixStore.Proofs.Tree.Evolution

/-!
# The form of a tree

The form of a tree is what is left when values, locks, identities and the places of the children
inside a body are left out: the kind and the whole stem of every node, its terminal, and the children
by their bytes. Two trees that store the same keys have the same form, whatever was stored and removed
before, and so they have the same shape. The shape is known from the keys: there are as many leaves as
keys, and a path is as long as there are places on it where keys part.
-/

namespace RadixStore

variable {V W : Type}

/-! ### Forms -/

/-- The form of a node. -/
inductive Form where
  | leaf (key : Key)
  /-- The stem with its length, the key of the terminal, and the children, ascending. -/
  | inner (kind : Kind) (length : Nat) (stem : Option Key) (terminal : Option Key)
      (children : List (UInt8 × Form))

/-- The form of a node that is reached at `depth`. -/
def Node.form (depth : Nat) : Node V → Form
  | .leaf l => .leaf l.key
  | .inner n =>
    .inner n.kind n.stem.length (n.fullStem depth).toOption (n.terminal.map Leaf.key)
      (n.body.toList.attach.map fun e => (e.1.1, e.1.2.form (depth + n.stem.length + 1)))
termination_by c => sizeOf c
decreasing_by
  have hlt := Body.sizeOf_lt_of_mem e.2
  obtain ⟨id, lock, stem, terminal, body⟩ := n
  simp only [Node.inner.sizeOf_spec, Branch.mk.sizeOf_spec] at hlt ⊢
  omega

/-- The form of the whole tree, the root included. -/
def Tree.form (t : Tree V) : Form :=
  (Node.inner t.root).form 0

/-- The shape of a node as it is read off the form. -/
def Form.shape : Form → Shape
  | .leaf _ => .leaf
  | .inner kind _ _ terminal children =>
    ((children.attach.map fun e => e.1.2.shape).foldr Shape.beside
      (if terminal.isSome then Shape.leaf else Shape.zero)).under kind
decreasing_by
  have hlt := List.sizeOf_lt_of_mem e.2
  obtain ⟨⟨b, c⟩, hmem⟩ := e
  simp only [Prod.mk.sizeOf_spec, Form.inner.sizeOf_spec] at hlt ⊢
  omega

theorem Node.form_leaf (l : Leaf V) (depth : Nat) : (Node.leaf l).form depth = .leaf l.key := by
  rw [Node.form]

theorem Node.form_inner (n : Inner V) (depth : Nat) :
    (Node.inner n).form depth =
      .inner n.kind n.stem.length (n.fullStem depth).toOption (n.terminal.map Leaf.key)
        (n.body.toList.map (onChild (Node.form (depth + n.stem.length + 1)))) := by
  rw [Node.form]
  have h := List.attach_map_val (l := n.body.toList)
    (f := onChild (Node.form (depth + n.stem.length + 1)))
  exact congrArg _ h

theorem Form.shape_inner (kind : Kind) (length : Nat) (stem terminal : Option Key)
    (children : List (UInt8 × Form)) :
    (Form.inner kind length stem terminal children).shape =
      ((children.map fun e => e.2.shape).foldr Shape.beside
        (if terminal.isSome then Shape.leaf else Shape.zero)).under kind := by
  rw [Form.shape]
  have h := List.attach_map_val (f := fun e : UInt8 × Form => e.2.shape) (l := children)
  simp only [h]

/-- The shape of a node is that of its form. -/
theorem Node.shape_form (c : Node V) (depth : Nat) : (c.form depth).shape = c.shape := by
  cases c with
  | leaf l => rw [Node.form_leaf, Form.shape, Node.shape]
  | inner n =>
    have hchildren : ∀ e ∈ n.body.toList,
        (e.2.form (depth + n.stem.length + 1)).shape = e.2.shape := by
      intro e he
      have hlt := Body.sizeOf_lt_of_mem he
      exact Node.shape_form e.2 _
    rw [Node.form_inner, Form.shape_inner, Node.shape_inner, List.map_map, Option.isSome_map]
    rw [List.map_congr_left (g := fun e => e.2.shape) hchildren]
termination_by sizeOf c
decreasing_by
  obtain ⟨id, lock, stem, terminal, body⟩ := n
  simp only [Node.inner.sizeOf_spec, Branch.mk.sizeOf_spec] at hlt ⊢
  omega

/-! ### The keys determine the form -/

theorem listing_map {α β : Type} (f : UInt8 → Option α) (g : α → β) :
    (listing f).map (onChild g) = listing fun b => (f b).map g := by
  unfold listing
  rw [List.map_filterMap]
  congr 1
  funext b
  show ((f b).map fun c => (b, c)).map (onChild g) = ((f b).map g).map fun c => (b, c)
  cases f b <;> rfl

theorem Kind.eq_of_isLeast {j k : Kind} {count : Nat} (hj : j.IsLeast count)
    (hjc : count ≤ j.capacity) (hk : k.IsLeast count) (hkc : count ≤ k.capacity) : j = k := by
  have hcap := Nat.le_antisymm (hj k hkc) (hk j hjc)
  cases j <;> cases k <;> simp [capacity] at hcap ⊢

namespace Branch

variable {n : Inner V} {m : Inner W} {path stem : Key} {K : Set Key}

theorem Holds.terminal_key (hn : n.Holds path stem) (hK : (Node.inner n).keys = Key.below K path)
    (key : Key) : n.terminal.map Leaf.key = some key ↔ key = path ++ stem ∧ path ++ stem ∈ K := by
  rw [← hn.terminal_iff hK, Option.map_eq_some_iff]
  constructor
  · rintro ⟨l, hl, rfl⟩
    obtain ⟨k, hk, hkey⟩ := hn.under .terminal _ (terminal_eq_some_iff.1 hl)
    cases hk
    exact ⟨hkey, by rw [hl]; rfl⟩
  · rintro ⟨rfl, hsome⟩
    obtain ⟨l, hl⟩ := Option.isSome_iff_exists.1 hsome
    obtain ⟨k, hk, hkey⟩ := hn.under .terminal _ (terminal_eq_some_iff.1 hl)
    cases hk
    exact ⟨l, hl, hkey⟩

/-- Two nodes with the same stem and the same keys below them have the same form, if they are of the
    same kind and their children have the same forms. -/
theorem Holds.form_eq (hn : n.Holds path stem) (hm : m.Holds path stem)
    (hnstem : n.fullStem path.length = .ok stem) (hmstem : m.fullStem path.length = .ok stem)
    (hkind : n.kind = m.kind) (hnK : (Node.inner n).keys = Key.below K path)
    (hmK : (Node.inner m).keys = Key.below K path)
    (hchild : ∀ b c d, n.load (.byte b) = some c → m.load (.byte b) = some d →
      c.form (path ++ stem ++ [b]).length = d.form (path ++ stem ++ [b]).length) :
    (Node.inner n).form path.length = (Node.inner m).form path.length := by
  have hterminal : n.terminal.map Leaf.key = m.terminal.map Leaf.key := by
    apply Option.ext
    intro key
    rw [hn.terminal_key hnK, hm.terminal_key hmK]
  have hchildren : n.body.toList.map (onChild (Node.form (path.length + stem.length + 1))) =
      m.body.toList.map (onChild (Node.form (path.length + stem.length + 1))) := by
    rw [hn.sound.toList_eq, hm.sound.toList_eq, listing_map, listing_map]
    congr 1
    funext b
    have hsome := (hn.child_iff hnK b).trans (hm.child_iff hmK b).symm
    cases hc : n.body.child? b with
    | none =>
      cases hd : m.body.child? b with
      | none => rfl
      | some d =>
        rw [hc, hd] at hsome
        exact absurd (hsome.2 rfl) Bool.false_ne_true
    | some c =>
      cases hd : m.body.child? b with
      | none =>
        rw [hc, hd] at hsome
        exact absurd (hsome.1 rfl) Bool.false_ne_true
      | some d =>
        have hform := hchild b c d hc hd
        rw [length_path_append_byte] at hform
        exact congrArg some hform
  rw [Node.form_inner, Node.form_inner, hn.stem_length, hm.stem_length, hnstem, hmstem, hkind,
    hterminal, hchildren]

end Branch

/-- Two valid nodes on the same path with the same keys below them have the same form. -/
theorem Node.Valid.form_eq {c : Node V} {d : Node W} {path : Key} {K : Set Key} (hc : c.Valid path)
    (hd : d.Valid path) (hcK : c.keys = Key.below K path) (hdK : d.keys = Key.below K path) :
    c.form path.length = d.form path.length := by
  induction hc generalizing d with
  | @leaf path k _ =>
    cases d with
    | leaf l =>
      have hkey : k.key ∈ (Node.leaf l).keys := by
        rw [hdK, ← hcK]
        exact Node.mem_keys_of_has (Node.Has.leaf k)
      obtain ⟨v, hv⟩ := hkey
      rw [Node.form_leaf, Node.form_leaf]
      exact congrArg (fun l => Form.leaf l.key) (Node.has_leaf_iff.1 hv)
    | inner m =>
      obtain ⟨stem, hm, htwo, -⟩ := Node.valid_inner_iff.1 hd
      exact absurd (hm.partAt htwo hdK)
        (Node.not_partAt_of_leaf hcK (List.prefix_append path stem))
  | @inner path stem n hfits htwo hleast hterminal hchild ih =>
    have hn := hfits.holds hterminal hchild
    have hnpart := hn.partAt htwo hcK
    cases d with
    | leaf l =>
      exact absurd hnpart (Node.not_partAt_of_leaf hdK (List.prefix_append path stem))
    | inner m =>
      obtain ⟨stem', hm, hms⟩ := Node.valid_inner_iff.1 hd
      -- keys part at the end of either stem, and no higher than at the end of the other
      have hle := hm.prefix_of_partAt hdK (List.prefix_append path stem) hnpart
      have hge := hn.prefix_of_partAt hcK (List.prefix_append path stem') (hm.partAt hms.1 hdK)
      have hstem : stem = stem' :=
        List.append_cancel_left (hge.eq_of_length (hge.length_le.antisymm hle.length_le))
      subst hstem
      have hcount : n.count = m.count := by rw [hn.count_eq hcK, hm.count_eq hdK]
      have hkind : n.kind = m.kind :=
        Kind.eq_of_isLeast hleast hn.sound.count_le (hcount ▸ hms.2) (hcount ▸ hm.sound.count_le)
      have hns : n.Shaped false stem := ⟨htwo, hleast⟩
      refine hn.form_eq hm (hn.fullStem hns) (hm.fullStem hms) hkind hcK hdK ?_
      intro b c d hload hload'
      exact ih b c hload (hm.under (.byte b) d hload') (hn.keys_child hcK hload)
        (hm.keys_child hdK hload')

/-- Two valid trees that store the same keys have the same form. -/
theorem Tree.Valid.form_eq {t : Tree V} {u : Tree W} (ht : t.Valid) (hu : u.Valid)
    (hkeys : t.keys = u.keys) : t.form = u.form := by
  have htK := ht.keys_root
  have huK := hu.keys_root
  obtain ⟨stem, hn, hns⟩ := ht
  obtain ⟨stem', hm, hms⟩ := hu
  have hstem := hns.1
  have hstem' := hms.1
  subst hstem hstem'
  rw [← hkeys] at huK
  refine hn.form_eq hm (hn.fullStem hns) (hm.fullStem hms) (hns.2.trans hms.2.symm) htK huK ?_
  intro b c d hload hload'
  exact Node.Valid.form_eq (hn.under (.byte b) c hload) (hm.under (.byte b) d hload')
    (hn.keys_child htK hload) (hm.keys_child huK hload')

/-! ### The tree of a set of keys -/

/-- The tree is the one that its keys determine. -/
structure Tree.Canonical (t : Tree V) : Prop where
  stored (key : Key) : key ∈ t.keys ↔ (t.get? key).isSome
  /-- The nodes other than the root stand where the stored keys part. -/
  bijOn : Set.BijOn (fun x : Inner V × Key => x.1.covered x.2) t.places t.forks
  root : t.root.kind = .node256 ∧ t.root.covered [] = []
  terminal {n : Inner V} {q : Key} : t.root.Reaches [] n q →
    (n.terminal.isSome ↔ n.covered q ∈ t.keys)
  child {n : Inner V} {q : Key} (b : UInt8) : t.root.Reaches [] n q →
    ((n.body.child? b).isSome ↔ b ∈ Key.followers t.keys (n.covered q))
  /-- The kind is the smallest that has room for the bytes that follow. -/
  kind {n : Inner V} {q : Key} : (n, q) ∈ t.places →
    (Key.followers t.keys (n.covered q)).ncard ≤ n.kind.capacity ∧
      n.kind.IsLeast (Key.followers t.keys (n.covered q)).ncard
  leaves : t.shape.leaves = t.keys.card
  maxDepth : IsGreatest ({1} ∪ {d | ∃ key ∈ t.keys, {p | p ∈ t.forks ∧ p <+: key}.ncard + 2 = d})
    t.shape.maxDepth

namespace Tree

variable {t : Tree V}

theorem Valid.canonical (ht : t.Valid) : t.Canonical where
  stored key := by
    rw [ht.mem_keys_iff, Option.isSome_iff_exists]
    exact exists_congr fun v => ht.get?_eq_some_iff.symm
  bijOn := ht.bijOn_covered
  root := by
    obtain ⟨stem, -, hshape⟩ := id ht
    exact ⟨hshape.2, ht.covered_root⟩
  terminal {n q} hreach := by
    obtain ⟨isRoot, hn⟩ := hreach.valid ht
    obtain ⟨stem, hholds, hstem⟩ := hn.exists_stem
    rw [Branch.covered_of_fullStem hstem]
    exact hholds.terminal_iff (hreach.keys ht ht.keys_root)
  child {n q} b hreach := by
    obtain ⟨isRoot, hn⟩ := hreach.valid ht
    obtain ⟨stem, hholds, hstem⟩ := hn.exists_stem
    rw [Branch.covered_of_fullStem hstem]
    exact hholds.child_iff (hreach.keys ht ht.keys_root) b
  kind {n q} hplace := by
    obtain ⟨hreach, hne⟩ := hplace
    obtain ⟨stem, hholds, hshape⟩ := hreach.valid_of_ne ht hne
    rw [Branch.covered_of_fullStem (hholds.fullStem hshape),
      ← hholds.count_eq (hreach.keys ht ht.keys_root)]
    exact ⟨hholds.sound.count_le, hshape.2⟩
  leaves := ht.leaves_shape
  maxDepth := ht.isGreatest_depth

theorem shape_form (t : Tree V) : t.form.shape = t.shape :=
  Node.shape_form _ 0

end Tree

namespace TreeScript

/-- The tree is a function of its keys: scripts that leave the same keys leave trees of the same form
    and shape, and what stands in them can be told from the keys. -/
theorem exec_form_eq (ops : List (Op V)) (ops' : List (Op W))
    (hkeys : (exec start ops).tree.keys = (exec start ops').tree.keys) :
    (exec start ops).tree.form = (exec start ops').tree.form ∧
      (exec start ops).tree.shape = (exec start ops').tree.shape ∧
      (exec start ops).tree.Canonical := by
  have hvalid := (exec_start_numbered ops).1
  have hvalid' := (exec_start_numbered ops').1
  have hform := hvalid.form_eq hvalid' hkeys
  refine ⟨hform, ?_, hvalid.canonical⟩
  rw [← Tree.shape_form, ← Tree.shape_form, hform]

/-- Two ways to store the keys `a` and `ab`, one of them with a fork that is taken back. -/
theorem form_eq_two_keys :
    let ops : List (Op Nat) :=
      [.insert [97, 98] 1, .insert [97, 98, 99] 2, .getOrInsert [97] 3, .remove [97, 98, 99]]
    let ops' : List (Op String) := [.insert [97] "x", .insert [97, 98] "y"]
    (exec start ops).tree.form = (exec start ops').tree.form ∧
      (exec start ops).tree.shape = (exec start ops').tree.shape ∧
      (exec start ops).tree.Canonical :=
  exec_form_eq _ _ (by decide +kernel)

end TreeScript

end RadixStore
