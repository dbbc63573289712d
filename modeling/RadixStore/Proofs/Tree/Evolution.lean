import Mathlib
import RadixStore.Proofs.Tree.Contents
import RadixStore.Proofs.Tree.Reach
import RadixStore.Script.Tree

/-!
# What becomes of a node

A node of an edited tree is new, or it goes on from a node of the old tree with the same identity. In
the second case it was write-locked once, or it is unchanged: it has the same lock word, stands on the
same path, and has the same stem and the same table of children. New nodes get an identity that no node
had before, so that no two nodes ever have the same.

A node that goes on may come to stand elsewhere: a fork that is put above it takes away the front of its
stem, and when the node above it is collapsed it takes over the stem of that one. The path and the stem
together stay what they were. So a path that once led to a node is a prefix of what the node covers ever
after.
-/

namespace RadixStore

variable {V : Type}

/-! ### Nodes that go on -/

/-- The same leaf, or two inner nodes with the same identity. -/
def Node.Alike : Node V → Node V → Prop
  | .leaf l, .leaf l' => l = l'
  | .inner n, .inner n' => n.id = n'.id
  | _, _ => False

theorem Node.Alike.refl (c : Node V) : c.Alike c := by
  cases c with
  | leaf l => exact (rfl : l = l)
  | inner n => exact (rfl : n.id = n.id)

namespace Branch

/-- The node `m'` on `q'` is the node `m` on `q` as far as a reader can tell. -/
structure Unchanged (m : Inner V) (q : Key) (m' : Inner V) (q' : Key) : Prop where
  lock_eq : m'.lock = m.lock
  path_eq : q' = q
  fullStem_eq : m'.fullStem q'.length = m.fullStem q.length
  table : ∀ edge, Option.Rel Node.Alike (m.load edge) (m'.load edge)

/-- The node `m'` on `q'` is what has become of the node `m` on `q`. -/
structure Continues (m : Inner V) (q : Key) (m' : Inner V) (q' : Key) : Prop where
  id_eq : m'.id = m.id
  change : m'.lock = m.lock.stepped ∨ m.Unchanged q m' q'

theorem Unchanged.refl (m : Inner V) (q : Key) : m.Unchanged q m q where
  lock_eq := rfl
  path_eq := rfl
  fullStem_eq := rfl
  table edge := by
    cases m.load edge with
    | none => exact Option.Rel.none
    | some c => exact Option.Rel.some (Node.Alike.refl c)

theorem Continues.refl (m : Inner V) (q : Key) : m.Continues q m q :=
  ⟨rfl, Or.inr (Unchanged.refl m q)⟩

/-- The node `m'` on `q'` is new and called `id`, or goes on from a node below `n`. -/
def NewOrOld (id : NodeId) (n : Inner V) (path : Key) (m' : Inner V) (q' : Key) : Prop :=
  m'.id = id ∧ m'.lock = .fresh ∨ ∃ m q, n.Reaches path m q ∧ m.Continues q m' q'

/-- The node `k` on `q` is called `id`, or it covers what the node below `n` with its identity
    covers. -/
def NewOrCovers (id : NodeId) (n : Inner V) (path : Key) (k : Inner V) (q : Key) : Prop :=
  k.id = id ∨ ∃ m r, n.Reaches path m r ∧ m.id = k.id ∧ m.covered r = k.covered q

/-- The node `m'` on `q'` is new and called `id`, or goes on from a node below `n` and covers what
    that node covered. -/
def Traced (id : NodeId) (n : Inner V) (path : Key) (m' : Inner V) (q' : Key) : Prop :=
  m'.id = id ∧ m'.lock = .fresh ∨
    ∃ m q, n.Reaches path m q ∧ m.Continues q m' q' ∧ m.covered q = m'.covered q'

variable {id : NodeId} {n m c : Inner V} {path path' stem stem' q : Key} {b : UInt8}

theorem Traced.newOrOld (h : Traced id n path m q) : NewOrOld id n path m q :=
  h.imp_right fun ⟨k, r, hreach, hk, _⟩ => ⟨k, r, hreach, hk⟩

theorem Traced.newOrCovers (h : Traced id n path m q) : NewOrCovers id n path m q :=
  h.imp And.left fun ⟨k, r, hreach, hk, hcovered⟩ => ⟨k, r, hreach, hk.id_eq.symm, hcovered⟩

theorem Reaches.traced (h : n.Reaches path m q) : Traced id n path m q :=
  Or.inr ⟨m, q, h, Continues.refl m q, rfl⟩

/-- What is traced to a node below a child is traced to one below the node. -/
theorem Traced.ofChild (hstem : n.fullStem path.length = .ok stem)
    (hload : n.load (.byte b) = some (.inner c)) (h : Traced id c (path ++ stem ++ [b]) m q) :
    Traced id n path m q :=
  h.imp_right fun ⟨k, r, hreach, hk⟩ => ⟨k, r, .child hstem hload hreach, hk⟩

/-- When one child is exchanged, the nodes below are traced as soon as those below the new child are. -/
theorem traced_of_update {edge : Edge} {o : Option (Node V)}
    (hstem : n.fullStem path.length = .ok stem) (hmstem : m.fullStem path.length = .ok stem)
    (hload : m.load = Function.update n.load edge o)
    (hself : m.id = id ∧ m.lock = .fresh ∨ n.Continues path m path)
    (ho : ∀ b d, edge = .byte b → o = some (.inner d) → ∀ k r, d.Reaches (path ++ stem ++ [b]) k r →
      Traced id n path k r) :
    ∀ k r, m.Reaches path k r → Traced id n path k r := by
  intro k r hreach
  cases hreach with
  | here =>
    have hcovered : n.covered path = m.covered path :=
      (covered_of_fullStem hstem).trans (covered_of_fullStem hmstem).symm
    exact hself.imp_right fun hm => ⟨n, path, .here, hm, hcovered⟩
  | @child _ d _ _ stem' _ b hstem' hd hreach =>
    rw [hmstem] at hstem'
    cases hstem'
    rcases load_cases_of_update hload hd with ⟨hb, hd⟩ | ⟨-, hd⟩
    · exact ho b d hb.symm hd k r hreach
    · exact (Reaches.child hstem hd hreach).traced

/-- When bytes pass from the stem of a node to its path or back, the nodes below stay where they are. -/
theorem traced_of_moved (hstem : n.fullStem path.length = .ok stem)
    (hmstem : m.fullStem path'.length = .ok stem') (hcovered : path' ++ stem' = path ++ stem)
    (hid : m.id = n.id) (hlock : m.lock = n.lock.stepped) (hload : m.load = n.load) :
    ∀ k r, m.Reaches path' k r → Traced id n path k r := by
  intro k r hreach
  cases hreach with
  | here =>
    refine Or.inr ⟨n, path, .here, ⟨hid, Or.inl hlock⟩, ?_⟩
    rw [covered_of_fullStem hstem, covered_of_fullStem hmstem, hcovered]
  | child hs hd hreach =>
    rw [hmstem] at hs
    cases hs
    rw [hload] at hd
    rw [hcovered] at hreach
    exact (Reaches.child hstem hd hreach).traced

end Branch

variable {id : NodeId} {key : Key} {o : Option V} {r : Option Retired}

theorem Edit.id_eq {isRoot : Bool} {path : Key} {n m : Inner V}
    (h : Edit id key o isRoot path n (.inPlace m) r) : m.id = n.id := by
  cases h with
  | leaf _ _ _ _ hm _ _ => exact hm.id_eq
  | forkedLeaf _ _ _ _ _ _ hm _ _ => exact hm.id_eq
  | belowInPlace _ _ _ _ hm _ _ => exact hm.id_eq
  | belowRelinked _ _ _ _ hm _ _ => exact hm.id_eq

/-- The nodes below a fork are traced as soon as those below its two children are. -/
theorem Branch.IsFork.traced {n fork : Inner V} {path path' mid : Key} {e₁ e₂ : Edge}
    {c₁ c₂ : Node V} (h : fork.IsFork id mid e₁ c₁ e₂ c₂)
    (hstem : fork.fullStem path'.length = .ok mid)
    (h₁ : ∀ b d, e₁ = .byte b → c₁ = .inner d → ∀ k r, d.Reaches (path' ++ mid ++ [b]) k r →
      n.Traced id path k r)
    (h₂ : ∀ b d, e₂ = .byte b → c₂ = .inner d → ∀ k r, d.Reaches (path' ++ mid ++ [b]) k r →
      n.Traced id path k r) :
    ∀ k r, fork.Reaches path' k r → n.Traced id path k r := by
  intro k r hreach
  cases hreach with
  | here => exact Or.inl ⟨h.id_eq, h.lock_eq⟩
  | @child _ d _ _ stem' _ b hstem' hd hreach =>
    rw [hstem] at hstem'
    cases hstem'
    rcases h.load_eq_some_iff.1 hd with ⟨hb, hd⟩ | ⟨hb, hd⟩
    · exact h₁ b d hb.symm hd k r hreach
    · exact h₂ b d hb.symm hd k r hreach

/-- Every inner node below an edited node is new or can be traced to one below the old node. -/
theorem Edit.traced {isRoot : Bool} {path : Key} {n : Inner V} {ch : Change V}
    (h : Edit id key o isRoot path n ch r) (hn : n.Valid isRoot path) :
    ∀ c, ch.node? = some (.inner c) → ∀ k q, c.Reaches path k q → n.Traced id path k q := by
  have hvalid := h.valid
  have hleaf : ∀ d : Inner V, (o.map fun v => Node.leaf ⟨key, v⟩) ≠ some (.inner d) := by
    intro d hd
    obtain ⟨v, -, hv⟩ := Option.map_eq_some_iff.1 hd
    cases hv
  induction h with
  | @leaf isRoot path stem n m edge hholds hkey hedge _ hm hlock hshape =>
    intro c hc
    cases hc
    have hidle : m.lock.Idle := hlock ▸ hholds.idle.stepped
    have hmh := hholds.updateLeaf hkey hedge hm.stem_eq hm.sound hidle hm.load_eq
    exact Branch.traced_of_update (hholds.fullStem_of_valid hn) (hmh.fullStem hshape) hm.load_eq
      (Or.inr ⟨hm.id_eq, Or.inl hlock⟩) fun b d _ hd => absurd hd (hleaf d)
  | @resized path stem n m edge hholds hkey hedge _ hid hlock hstem hsound hload hshape =>
    intro c hc
    cases hc
    have hidle : m.lock.Idle := hlock ▸ VersionLock.idle_fresh
    have hmh := hholds.updateLeaf hkey hedge hstem hsound hidle hload
    exact Branch.traced_of_update (hholds.fullStem_of_valid hn) (hmh.fullStem hshape) hload
      (Or.inl ⟨hid, hlock⟩) fun b d _ hd => absurd hd (hleaf d)
  | @forkedLeaf isRoot path stem mid n m fork b old v hholds hload _ hold hkey hfork hm hlock hshape =>
    intro c hc
    cases hc
    have hidle : m.lock.Idle := hlock ▸ hholds.idle.stepped
    have hunder := Node.under_leaf (l := ⟨key, v⟩) hkey
    have hforkvalid := hfork.valid (Node.under_leaf hold) hunder
    have hmid : fork.Holds (path ++ stem ++ [b]) mid := hfork.holds (Node.under_leaf hold) hunder
    have hmh := hholds.updateChild hm hidle hforkvalid
    refine Branch.traced_of_update (hholds.fullStem_of_valid hn) (hmh.fullStem hshape) hm.load_eq
      (Or.inr ⟨hm.id_eq, Or.inl hlock⟩) ?_
    intro b' d hb hd
    cases hb
    cases hd
    -- the two entries of the fork are leaves
    exact hfork.traced (hmid.fullStem_of_valid (Node.valid_inner_iff.1 hforkvalid))
      (fun _ _ _ hd => nomatch hd) (fun _ _ _ hd => nomatch hd)
  | @forkedStem path mid rest n fork b v hholds hshape _ hkey hfork =>
    intro c hc
    cases hc
    have hcut : (n.cut rest).Holds (path ++ mid ++ [b]) rest := hholds.cut
    have hcutshape : (n.cut rest).Shaped false rest := hshape
    have hmid : fork.Holds path mid := hfork.holds (Node.under_leaf (l := ⟨key, v⟩) hkey)
      (Node.valid_inner_iff.2 ⟨rest, hcut, hcutshape⟩)
    refine hfork.traced (hmid.fullStem_of_valid (Node.valid_inner_iff.1 hvalid.2))
      (fun _ _ _ hd => nomatch hd) ?_
    intro b' d hb hd
    cases hb
    cases hd
    have hcovered : path ++ mid ++ [b] ++ rest = path ++ (mid ++ b :: rest) := by simp
    exact Branch.traced_of_moved (hholds.fullStem_of_valid hn) (hcut.fullStem hcutshape) hcovered
      rfl rfl rfl
  | @collapsedLeaf path stem n edge edge' v l hholds _ _ hload _ _ =>
    intro c hc
    cases hc
  | @collapsedInner path stem n m edge b v hholds _ _ hload _ _ =>
    intro c hc
    cases hc
    obtain ⟨below, hm, hmshape⟩ := hholds.valid_of_load_inner hload
    have hmstem := hm.merge.fullStem_of_valid (Node.valid_inner_iff.1 hvalid.2)
    have hcovered : path ++ (stem ++ b :: below) = path ++ stem ++ [b] ++ below := by simp
    intro k q hreach
    have hchild : m.Traced id (path ++ stem ++ [b]) k q :=
      Branch.traced_of_moved (hm.fullStem hmshape) hmstem hcovered rfl rfl rfl k q hreach
    exact hchild.ofChild (hholds.fullStem_of_valid hn) hload
  | @belowInPlace isRoot path stem n m c d b _ hholds _ hload hedit hm hlock hshape ih =>
    intro c' hc'
    cases hc'
    have hd := hedit.valid
    have hidle : m.lock.Idle := hlock ▸ hholds.idle
    have hmh := hholds.updateChild hm hidle (Node.valid_inner_iff.2 hd)
    have hnstem := hholds.fullStem_of_valid hn
    have hmstem := hmh.fullStem hshape
    refine Branch.traced_of_update hnstem hmstem hm.load_eq ?_ ?_
    · -- the node itself is unchanged, for its child keeps its identity
      refine Or.inr ⟨hm.id_eq, Or.inr ⟨hlock, rfl, hmstem.trans hnstem.symm, ?_⟩⟩
      intro edge
      rw [hm.load_eq, Function.update_apply]
      by_cases hedge : edge = .byte b
      · rw [if_pos hedge, hedge, hload]
        exact Option.Rel.some (hedit.id_eq.symm : c.id = d.id)
      · rw [if_neg hedge]
        exact (Branch.Unchanged.refl n path).table edge
    · intro b' d' hb hd' k q hreach
      cases hb
      cases hd'
      have hchild := ih (hholds.valid_of_load_inner hload) hd d rfl k q hreach
      exact hchild.ofChild hnstem hload
  | @belowRelinked isRoot path stem n m c b d _ hholds _ hload hedit hm hlock hshape ih =>
    intro c' hc'
    cases hc'
    have hd := hedit.valid
    have hidle : m.lock.Idle := hlock ▸ hholds.idle.stepped
    have hmh := hholds.updateChild hm hidle hd.2
    have hnstem := hholds.fullStem_of_valid hn
    refine Branch.traced_of_update hnstem (hmh.fullStem hshape) hm.load_eq
      (Or.inr ⟨hm.id_eq, Or.inl hlock⟩) ?_
    intro b' d' hb hd' k q hreach
    cases hb
    cases hd'
    have hchild := ih (hholds.valid_of_load_inner hload) hd d' rfl k q hreach
    exact hchild.ofChild hnstem hload

/-! ### Identities stay distinct -/

namespace Branch

variable {n m : Inner V} {edge : Edge} {o : Option (Node V)}

/-- Exchanging one child brings no identities in but those of the new child. -/
theorem owns_of_update (hid : m.id = n.id ∨ m.id = id)
    (hload : m.load = Function.update n.load edge o)
    (ho : ∀ c, o = some c → ∀ i, c.Owns i → i = id ∨ (Node.inner n).Owns i) {i : NodeId}
    (h : (Node.inner m).Owns i) : i = id ∨ (Node.inner n).Owns i := by
  rcases Node.owns_inner_iff.1 h with rfl | ⟨e, c, hc, hi⟩
  · rcases hid with hid | hid
    · rw [hid]
      exact Or.inr (Node.Owns.self n)
    · exact Or.inl hid
  · rcases load_cases_of_update hload hc with ⟨-, hc⟩ | ⟨-, hc⟩
    · exact ho c hc i hi
    · exact Or.inr (Node.Owns.child hc hi)

/-- Exchanging one child for one with new identities, or those of the old child, keeps all
    identities distinct. -/
theorem distinct_of_update (hd : (Node.inner n).Distinct) (hfresh : ¬ (Node.inner n).Owns id)
    (hid : m.id = n.id ∨ m.id = id ∧ ∀ c, o = some c → ¬ c.Owns id)
    (hload : m.load = Function.update n.load edge o)
    (ho : ∀ c, o = some c → c.Distinct ∧
      ∀ i, c.Owns i → i = id ∨ ∃ d, n.load edge = some d ∧ d.Owns i) :
    (Node.inner m).Distinct := by
  cases hd with
  | inner hchild hself hedges =>
    have hne : ∀ {e}, e ≠ edge → m.load e = n.load e := by
      intro e he
      rw [hload, Function.update_of_ne he]
    have heq : m.load edge = o := by rw [hload, Function.update_self]
    have hold : ∀ {e c i}, n.load e = some c → c.Owns i → i ≠ id := by
      rintro e c i hc hi rfl
      exact hfresh (Node.Owns.child hc hi)
    refine .inner ?_ ?_ ?_
    · intro e c hc
      by_cases he : e = edge
      · rw [he, heq] at hc
        exact (ho c hc).1
      · rw [hne he] at hc
        exact hchild e c hc
    · intro e c hc hi
      by_cases he : e = edge
      · rw [he, heq] at hc
        rcases hid with hid | ⟨hid, hnot⟩
        · rw [hid] at hi
          rcases (ho c hc).2 _ hi with hi | ⟨d, hd, hi⟩
          · exact hfresh (hi ▸ Node.Owns.self n)
          · exact hself edge d hd hi
        · exact hnot c hc (hid ▸ hi)
      · rw [hne he] at hc
        rcases hid with hid | ⟨hid, -⟩
        · exact hself e c hc (hid ▸ hi)
        · exact hold hc hi hid
    · intro e e' c c' i hc hc' hi hi'
      by_cases he : e = edge
      · by_cases he' : e' = edge
        · rw [he, he']
        · rw [he, heq] at hc
          rw [hne he'] at hc'
          rcases (ho c hc).2 i hi with rfl | ⟨d, hd, hi⟩
          · exact absurd rfl (hold hc' hi')
          · exact absurd (hedges _ _ _ _ _ hc' hd hi' hi) he'
      · rw [hne he] at hc
        by_cases he' : e' = edge
        · rw [he', heq] at hc'
          rcases (ho c' hc').2 i hi' with rfl | ⟨d, hd, hi'⟩
          · exact absurd rfl (hold hc hi)
          · exact absurd (hedges _ _ _ _ _ hc hd hi hi') he
        · rw [hne he'] at hc'
          exact hedges _ _ _ _ _ hc hc' hi hi'

theorem IsFork.owns_iff {mid : Key} {e₁ e₂ : Edge} {c₁ c₂ : Node V}
    (h : m.IsFork id mid e₁ c₁ e₂ c₂) {i : NodeId} :
    (Node.inner m).Owns i ↔ i = id ∨ c₁.Owns i ∨ c₂.Owns i := by
  rw [Node.owns_inner_iff, h.id_eq]
  refine or_congr_right ?_
  constructor
  · rintro ⟨e, c, hc, hi⟩
    rcases h.load_eq_some_iff.1 hc with ⟨-, rfl⟩ | ⟨-, rfl⟩
    · exact Or.inl hi
    · exact Or.inr hi
  · rintro (hi | hi)
    · exact ⟨e₁, c₁, h.load_eq_some_iff.2 (Or.inl ⟨rfl, rfl⟩), hi⟩
    · exact ⟨e₂, c₂, h.load_eq_some_iff.2 (Or.inr ⟨rfl, rfl⟩), hi⟩

theorem IsFork.distinct {mid : Key} {e₁ e₂ : Edge} {l : Leaf V} {c : Node V}
    (h : m.IsFork id mid e₁ (.leaf l) e₂ c) (hd : c.Distinct) (hfresh : ¬ c.Owns id) :
    (Node.inner m).Distinct := by
  have hone : ∀ e d i, m.load e = some d → d.Owns i → e = e₂ ∧ d = c := by
    intro e d i hload hi
    rcases h.load_eq_some_iff.1 hload with ⟨-, rfl⟩ | ⟨he, rfl⟩
    · exact absurd hi (Node.not_owns_leaf l i)
    · exact ⟨he, rfl⟩
  refine .inner ?_ ?_ ?_
  · intro e d hload
    cases d with
    | leaf k => exact Node.Distinct.leaf k
    | inner k =>
      rw [(hone e _ _ hload (Node.Owns.self k)).2]
      exact hd
  · intro e d hload hi
    rw [h.id_eq] at hi
    rw [(hone e d id hload hi).2] at hi
    exact hfresh hi
  · intro e e' d d' i hload hload' hi hi'
    rw [(hone e d i hload hi).1, (hone e' d' i hload' hi').1]

theorem owns_of_same (hid : m.id = n.id) (hload : m.load = n.load) {i : NodeId} :
    (Node.inner m).Owns i ↔ (Node.inner n).Owns i := by
  rw [Node.owns_inner_iff, Node.owns_inner_iff, hid, hload]

theorem distinct_of_same (hid : m.id = n.id) (hload : m.load = n.load)
    (hd : (Node.inner n).Distinct) : (Node.inner m).Distinct := by
  cases hd with
  | inner hchild hself hedges =>
    refine .inner ?_ ?_ ?_
    · rw [hload]
      exact hchild
    · rw [hload, hid]
      exact hself
    · rw [hload]
      exact hedges

theorem owns_cut {rest : Key} {i : NodeId} :
    (Node.inner (n.cut rest)).Owns i ↔ (Node.inner n).Owns i :=
  owns_of_same (n := n) (m := n.cut rest) rfl rfl

theorem owns_merge {stem : Key} {b : UInt8} {i : NodeId} :
    (Node.inner (n.merge stem b)).Owns i ↔ (Node.inner n).Owns i :=
  owns_of_same (n := n) (m := n.merge stem b) rfl rfl

theorem distinct_cut {rest : Key} (hd : (Node.inner n).Distinct) :
    (Node.inner (n.cut rest)).Distinct :=
  distinct_of_same (n := n) (m := n.cut rest) rfl rfl hd

theorem distinct_merge {stem : Key} {b : UInt8} (hd : (Node.inner n).Distinct) :
    (Node.inner (n.merge stem b)).Distinct :=
  distinct_of_same (n := n) (m := n.merge stem b) rfl rfl hd

end Branch

/-- An edit brings in no identity but that of the new node. -/
theorem Edit.owns {isRoot : Bool} {path : Key} {n : Inner V} {ch : Change V}
    (h : Edit id key o isRoot path n ch r) :
    ∀ c, ch.node? = some c → ∀ i, c.Owns i → i = id ∨ (Node.inner n).Owns i := by
  have hleaf : ∀ c, (o.map fun v => Node.leaf ⟨key, v⟩) = some c → ∀ i, ¬ c.Owns i := by
    intro c hc i hi
    obtain ⟨v, -, rfl⟩ := Option.map_eq_some_iff.1 hc
    exact Node.not_owns_leaf _ i hi
  induction h with
  | leaf _ _ _ _ hm _ _ =>
    intro c hc i
    cases hc
    exact Branch.owns_of_update (Or.inl hm.id_eq) hm.load_eq fun c hc i hi =>
      absurd hi (hleaf c hc i)
  | resized _ _ _ _ hid _ _ _ hload _ =>
    intro c hc i
    cases hc
    exact Branch.owns_of_update (Or.inr hid) hload fun c hc i hi => absurd hi (hleaf c hc i)
  | forkedLeaf _ _ _ _ _ hfork hm _ _ =>
    intro c hc i
    cases hc
    refine Branch.owns_of_update (Or.inl hm.id_eq) hm.load_eq ?_
    intro c hc i hi
    cases hc
    rcases hfork.owns_iff.1 hi with hi | hi | hi
    · exact Or.inl hi
    · exact absurd hi (Node.not_owns_leaf _ i)
    · exact absurd hi (Node.not_owns_leaf _ i)
  | forkedStem _ _ _ _ hfork =>
    intro c hc i hi
    cases hc
    rcases hfork.owns_iff.1 hi with hi | hi | hi
    · exact Or.inl hi
    · exact absurd hi (Node.not_owns_leaf _ i)
    · exact Or.inr (Branch.owns_cut.1 hi)
  | collapsedLeaf _ _ _ _ _ _ =>
    intro c hc i hi
    cases hc
    exact absurd hi (Node.not_owns_leaf _ i)
  | collapsedInner _ _ _ hload _ _ =>
    intro c hc i hi
    cases hc
    exact Or.inr (Node.Owns.child hload (Branch.owns_merge.1 hi))
  | belowInPlace _ _ hload _ hm _ _ ih =>
    intro c hc i
    cases hc
    refine Branch.owns_of_update (Or.inl hm.id_eq) hm.load_eq ?_
    intro c hc i hi
    cases hc
    exact (ih _ rfl i hi).imp_right (Node.Owns.child hload)
  | belowRelinked _ _ hload _ hm _ _ ih =>
    intro c hc i
    cases hc
    refine Branch.owns_of_update (Or.inl hm.id_eq) hm.load_eq ?_
    intro c hc i hi
    cases hc
    exact (ih _ rfl i hi).imp_right (Node.Owns.child hload)

/-- An edit keeps all identities distinct, when the one of the new node is new. -/
theorem Edit.distinct {isRoot : Bool} {path : Key} {n : Inner V} {ch : Change V}
    (h : Edit id key o isRoot path n ch r) (hd : (Node.inner n).Distinct)
    (hfresh : ¬ (Node.inner n).Owns id) : ∀ c, ch.node? = some c → c.Distinct := by
  have hleaf : ∀ c, (o.map fun v => Node.leaf ⟨key, v⟩) = some c →
      c.Distinct ∧ ∀ i, ¬ c.Owns i := by
    intro c hc
    obtain ⟨v, -, rfl⟩ := Option.map_eq_some_iff.1 hc
    exact ⟨Node.Distinct.leaf _, Node.not_owns_leaf _⟩
  induction h with
  | leaf _ _ _ _ hm _ _ =>
    intro c hc
    cases hc
    exact Branch.distinct_of_update hd hfresh (Or.inl hm.id_eq) hm.load_eq fun c hc =>
      ⟨(hleaf c hc).1, fun i hi => absurd hi ((hleaf c hc).2 i)⟩
  | resized _ _ _ _ hid _ _ _ hload _ =>
    intro c hc
    cases hc
    exact Branch.distinct_of_update hd hfresh (Or.inr ⟨hid, fun c hc => (hleaf c hc).2 id⟩) hload
      fun c hc => ⟨(hleaf c hc).1, fun i hi => absurd hi ((hleaf c hc).2 i)⟩
  | forkedLeaf _ _ _ _ _ hfork hm _ _ =>
    intro c hc
    cases hc
    refine Branch.distinct_of_update hd hfresh (Or.inl hm.id_eq) hm.load_eq ?_
    intro c hc
    cases hc
    refine ⟨hfork.distinct (Node.Distinct.leaf _) (Node.not_owns_leaf _ id), ?_⟩
    intro i hi
    rcases hfork.owns_iff.1 hi with hi | hi | hi
    · exact Or.inl hi
    · exact absurd hi (Node.not_owns_leaf _ i)
    · exact absurd hi (Node.not_owns_leaf _ i)
  | forkedStem _ _ _ _ hfork =>
    intro c hc
    cases hc
    exact hfork.distinct (Branch.distinct_cut hd) fun hi => hfresh (Branch.owns_cut.1 hi)
  | collapsedLeaf _ _ _ _ _ _ =>
    intro c hc
    cases hc
    exact Node.Distinct.leaf _
  | collapsedInner _ _ _ hload _ _ =>
    intro c hc
    cases hc
    exact Branch.distinct_merge (hd.child hload)
  | belowInPlace _ _ hload hedit hm _ _ ih =>
    intro c hc
    cases hc
    have hnot := fun hi => hfresh (Node.Owns.child hload hi)
    refine Branch.distinct_of_update hd hfresh (Or.inl hm.id_eq) hm.load_eq ?_
    intro c hc
    cases hc
    refine ⟨ih (hd.child hload) hnot _ rfl, ?_⟩
    intro i hi
    exact (hedit.owns _ rfl i hi).imp_right fun hi => ⟨_, hload, hi⟩
  | belowRelinked _ _ hload hedit hm _ _ ih =>
    intro c hc
    cases hc
    have hnot := fun hi => hfresh (Node.Owns.child hload hi)
    refine Branch.distinct_of_update hd hfresh (Or.inl hm.id_eq) hm.load_eq ?_
    intro c hc
    cases hc
    refine ⟨ih (hd.child hload) hnot _ rfl, ?_⟩
    intro i hi
    exact (hedit.owns _ rfl i hi).imp_right fun hi => ⟨_, hload, hi⟩

/-! ### Trees -/

namespace Tree

variable {t u : Tree V}

/-- No identity occurs twice, and the one that the next new node gets does not occur. -/
structure Numbered (t : Tree V) : Prop where
  distinct : (Node.inner t.root).Distinct
  lt_nextId : ∀ i, (Node.inner t.root).Owns i → i < t.nextId

/-- Every inner node of `u` is new or goes on from one of `t`. -/
structure Evolves (t u : Tree V) : Prop where
  newOrOld : ∀ k r, u.root.Reaches [] k r → t.root.NewOrOld t.nextId [] k r
  nextId_le : t.nextId ≤ u.nextId

theorem Evolves.refl (t : Tree V) : t.Evolves t where
  newOrOld _ _ h := h.traced.newOrOld
  nextId_le := le_rfl

/-- Every inner node of `u` is new or covers what it covered in `t`. -/
structure KeepsCovers (t u : Tree V) : Prop where
  newOrCovers : ∀ k q, u.root.Reaches [] k q → t.root.NewOrCovers t.nextId [] k q
  nextId_le : t.nextId ≤ u.nextId

theorem KeepsCovers.refl (t : Tree V) : t.KeepsCovers t where
  newOrCovers _ _ h := h.traced.newOrCovers
  nextId_le := le_rfl

/-- No lock word is smaller in `u` than it was in `t`. -/
def Ascends (t u : Tree V) : Prop :=
  ∀ n q m r, t.root.Reaches [] n q → u.root.Reaches [] m r → m.id = n.id →
    n.lock.word.toNat ≤ m.lock.word.toNat

theorem Ascends.refl (hn : t.Numbered) : t.Ascends t := by
  intro n q m r hreach hreach' hid
  obtain ⟨rfl, -⟩ := hreach'.eq_of_id hreach hn.distinct hid
  exact le_rfl

theorem numbered_empty : (empty : Tree V).Numbered where
  distinct := by
    refine .inner ?_ ?_ ?_ <;> (intros; simp [empty, Branch.load_empty] at *)
  lt_nextId i h := by
    rcases Node.owns_inner_iff.1 h with rfl | ⟨edge, c, hload, -⟩
    · exact Nat.zero_lt_one
    · rw [empty, Branch.load_empty] at hload
      cases hload

theorem Edited.numbered (h : t.Edited key o u r) (ht : t.Numbered) : u.Numbered where
  distinct := h.edit.distinct ht.distinct (fun hi => lt_irrefl _ (ht.lt_nextId _ hi)) _ rfl
  lt_nextId i hi := by
    rw [h.nextId_eq]
    rcases h.edit.owns _ rfl i hi with rfl | hi
    · exact Nat.lt_succ_self _
    · exact Nat.lt_succ_of_lt (ht.lt_nextId i hi)

theorem Edited.evolves (h : t.Edited key o u r) (ht : t.Valid) : t.Evolves u where
  newOrOld k q hreach := (h.edit.traced ht _ rfl k q hreach).newOrOld
  nextId_le := by
    rw [h.nextId_eq]
    exact Nat.le_succ _

theorem Edited.keepsCovers (h : t.Edited key o u r) (ht : t.Valid) : t.KeepsCovers u where
  newOrCovers k q hreach := (h.edit.traced ht _ rfl k q hreach).newOrCovers
  nextId_le := (h.evolves ht).nextId_le

theorem getOrInsert_of_some {found : V} (h : t.get? key = some found) (make : Unit → V) :
    t.getOrInsert key make = ⟨found, false, ⟨t, some found, none, none, none⟩⟩ := by
  unfold Tree.getOrInsert
  rw [h]

end Tree

/-! ### Scripts -/

namespace TreeScript

namespace State

variable {st : State V}

/-- The node that a step unlinks, if it unlinks one. -/
def retired? (st : State V) : Op V → Option Retired
  | .insert key value => (st.tree.insert key value).retired
  | .getOrInsert key value => (st.tree.getOrInsert key fun _ => value).written.retired
  | .remove key => (st.tree.remove key).retired
  | _ => none

/-- A step leaves the tree alone and unlinks nothing, or edits it. -/
theorem step_tree (h : st.tree.Valid) (op : Op V) :
    (st.step op).1.tree = st.tree ∧ st.retired? op = none ∨
      ∃ key o, st.tree.Edited key o (st.step op).1.tree (st.retired? op) := by
  cases op with
  | insert key value =>
    obtain ⟨-, -, hedit, -⟩ := h.insert key value
    exact Or.inr ⟨key, _, hedit⟩
  | getOrInsert key value =>
    obtain ⟨-, hcase⟩ := h.getOrInsert key fun _ => value
    cases hget : st.tree.get? key with
    | some found =>
      rw [hget] at hcase
      refine Or.inl ⟨hcase.2.2, ?_⟩
      show (st.tree.getOrInsert key fun _ => value).written.retired = none
      rw [Tree.getOrInsert_of_some hget]
    | none =>
      rw [hget] at hcase
      exact Or.inr ⟨key, _, hcase.2.2.1⟩
  | remove key =>
    obtain ⟨-, -, hcase⟩ := h.remove key
    cases hget : st.tree.get? key with
    | none =>
      rw [hget] at hcase
      exact Or.inl ⟨congrArg Written.tree hcase, congrArg Written.retired hcase⟩
    | some v =>
      rw [hget] at hcase
      exact Or.inr ⟨key, _, hcase.1⟩
  | reverse name =>
    unfold step
    dsimp only
    cases st.cursors.find name <;> exact Or.inl ⟨rfl, rfl⟩
  | next name count =>
    unfold step
    dsimp only
    cases st.cursors.find name <;> exact Or.inl ⟨rfl, rfl⟩
  | inspectCursor name =>
    unfold step
    dsimp only
    cases st.cursors.find name <;> exact Or.inl ⟨rfl, rfl⟩
  | get _ | scan _ _ _ _ | openCursor _ _ _ | close _ | size | shape | counters | resetCounters
  | inspect => exact Or.inl ⟨rfl, rfl⟩

theorem step_keepsCovers (h : st.tree.Valid) (op : Op V) :
    st.tree.KeepsCovers (st.step op).1.tree := by
  rcases step_tree h op with ⟨hsame, -⟩ | ⟨key, o, hedit⟩
  · rw [hsame]
    exact .refl _
  · exact hedit.keepsCovers h

/-- Whatever a step does, the nodes of the tree go on. -/
theorem step_evolves (h : st.tree.Valid) (hnum : st.tree.Numbered) (op : Op V) :
    (st.step op).1.tree.Valid ∧ (st.step op).1.tree.Numbered ∧
      st.tree.Evolves (st.step op).1.tree := by
  rcases step_tree h op with ⟨hsame, -⟩ | ⟨key, o, hedit⟩
  · rw [hsame]
    exact ⟨h, hnum, Tree.Evolves.refl _⟩
  · exact ⟨hedit.valid, hedit.numbered hnum, hedit.evolves h⟩

end State

theorem exec_numbered (ops : List (Op V)) {st : State V} (h : st.tree.Valid)
    (hnum : st.tree.Numbered) : (exec st ops).tree.Valid ∧ (exec st ops).tree.Numbered := by
  induction ops generalizing st with
  | nil => exact ⟨h, hnum⟩
  | cons op ops ih =>
    obtain ⟨hvalid, hnumbered, -⟩ := State.step_evolves h hnum op
    exact ih hvalid hnumbered

/-- Every tree that a script comes to is valid, and no identity occurs in it twice. -/
theorem exec_start_numbered (ops : List (Op V)) :
    (exec (start : State V) ops).tree.Valid ∧ (exec (start : State V) ops).tree.Numbered :=
  exec_numbered ops Tree.valid_empty Tree.numbered_empty

end TreeScript

end RadixStore
