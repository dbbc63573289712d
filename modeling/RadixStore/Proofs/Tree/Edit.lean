import Mathlib
import RadixStore.Proofs.Tree.Lookup

/-!
# Edits

An operation that changes the tree edits it at one place on the way that its key takes, and every
node above that place takes the edited child into the slot where the old one was. An edit is said
here by what it does to the nodes it touches, once for storing a key and for removing one:

    leaf            a leaf is put, exchanged or taken out where it stands
    resized         the same by a new node of the next larger or smaller kind
    forkedLeaf      a new node with two leaves takes the place of a leaf
    forkedStem      a new node takes the place of a node whose stem the key leaves
    collapsed…      the entry that is left takes the place of the node
    below…          the edit took place below a child

Whatever is true of all operations that change the tree is proved of edits, by induction on the way
down. The first two such facts stand here: the edited node is valid again, and it has the leaves of
the old one, except that the key has its new value or none.
-/

namespace RadixStore

variable {V : Type}

/-! ### Edited nodes -/

/-- A new node of the smallest kind with two entries. -/
structure Branch.IsFork (m : Inner V) (id : NodeId) (stem : Key) (e₁ : Edge) (c₁ : Node V)
    (e₂ : Edge) (c₂ : Node V) : Prop where
  id_eq : m.id = id
  lock_eq : m.lock = .fresh
  stem_eq : m.stem = .ofBytes stem stem.length
  kind_eq : m.kind = .node4
  sound : m.body.Sound
  load_eq : m.load = Function.update (Function.update (fun _ => none) e₁ (some c₁)) e₂ (some c₂)
  edges_ne : e₁ ≠ e₂

/-- The lower part of a node whose stem is cut. -/
def Branch.cut (n : Inner V) (rest : Key) : Inner V :=
  { n with lock := n.lock.stepped, stem := .ofBytes rest rest.length }

/-- A node that takes the place of its parent, whose stem was `stem`, on the edge for `b`. -/
def Branch.merge (m : Inner V) (stem : Key) (b : UInt8) : Inner V :=
  { m with
    lock := m.lock.stepped
    stem := .ofBytes (stem ++ b :: m.stem.head) (stem.length + 1 + m.stem.length) }

/-- What is reported of a node that an operation unlinks. -/
def Branch.retired (n : Inner V) : Retired :=
  ⟨n.id, n.lock.ended⟩

/-- What an edit makes of the node `n` that is reached on `path`, when it stores `o` under `key`, or
    removes the key if `o` is none, and what it reports as unlinked. A node that has to be made gets
    `id`. -/
inductive Edit (id : NodeId) (key : Key) (o : Option V) :
    Bool → Key → Inner V → Change V → Option Retired → Prop
  | leaf {isRoot : Bool} {path stem : Key} {n m : Inner V} {edge : Edge} :
      n.Holds path stem → path ++ stem <+: key → Edge.ofKey key (path ++ stem).length = edge →
      (∀ c, n.load edge = some c → ∃ v, c = .leaf ⟨key, v⟩) →
      n.Alters m edge (o.map fun v => .leaf ⟨key, v⟩) → m.lock = n.lock.stepped →
      m.Shaped isRoot stem → Edit id key o isRoot path n (.inPlace m) none
  | resized {path stem : Key} {n m : Inner V} {edge : Edge} :
      n.Holds path stem → path ++ stem <+: key → Edge.ofKey key (path ++ stem).length = edge →
      (∀ c, n.load edge = some c → ∃ v, c = .leaf ⟨key, v⟩) →
      m.id = id → m.lock = .fresh → m.stem = n.stem → m.body.Sound →
      m.load = Function.update n.load edge (o.map fun v => .leaf ⟨key, v⟩) →
      m.Shaped false stem → Edit id key o false path n (.relinked (.inner m)) (some n.retired)
  | forkedLeaf {isRoot : Bool} {path stem mid : Key} {n m fork : Inner V} {b : UInt8}
      {old : Leaf V} {v : V} :
      n.Holds path stem → n.load (.byte b) = some (.leaf old) → o = some v →
      path ++ stem ++ [b] ++ mid <+: old.key → path ++ stem ++ [b] ++ mid <+: key →
      fork.IsFork id mid (Edge.ofKey old.key (path ++ stem ++ [b] ++ mid).length) (.leaf old)
        (Edge.ofKey key (path ++ stem ++ [b] ++ mid).length) (.leaf ⟨key, v⟩) →
      n.Alters m (.byte b) (some (.inner fork)) → m.lock = n.lock.stepped →
      m.Shaped isRoot stem → Edit id key o isRoot path n (.inPlace m) none
  | forkedStem {path mid rest : Key} {n fork : Inner V} {b : UInt8} {v : V} :
      n.Holds path (mid ++ b :: rest) → n.Shaped false (mid ++ b :: rest) → o = some v →
      path ++ mid <+: key →
      fork.IsFork id mid (Edge.ofKey key (path ++ mid).length) (.leaf ⟨key, v⟩) (.byte b)
        (.inner (n.cut rest)) →
      Edit id key o false path n (.relinked (.inner fork)) none
  | collapsedLeaf {path stem : Key} {n : Inner V} {edge edge' : Edge} {v : V} {l : Leaf V} :
      n.Holds path stem → o = none → n.load edge = some (.leaf ⟨key, v⟩) →
      n.load edge' = some (.leaf l) → edge' ≠ edge →
      (∀ e, e ≠ edge → e ≠ edge' → n.load e = none) →
      Edit id key o false path n (.relinked (.leaf l)) (some n.retired)
  | collapsedInner {path stem : Key} {n m : Inner V} {edge : Edge} {b : UInt8} {v : V} :
      n.Holds path stem → o = none → n.load edge = some (.leaf ⟨key, v⟩) →
      n.load (.byte b) = some (.inner m) → .byte b ≠ edge →
      (∀ e, e ≠ edge → e ≠ .byte b → n.load e = none) →
      Edit id key o false path n (.relinked (.inner (m.merge stem b))) (some n.retired)
  | belowInPlace {isRoot : Bool} {path stem : Key} {n m c d : Inner V} {b : UInt8}
      {r : Option Retired} :
      n.Holds path stem → path ++ stem ++ [b] <+: key → n.load (.byte b) = some (.inner c) →
      Edit id key o false (path ++ stem ++ [b]) c (.inPlace d) r →
      n.Alters m (.byte b) (some (.inner d)) → m.lock = n.lock →
      m.Shaped isRoot stem → Edit id key o isRoot path n (.inPlace m) r
  | belowRelinked {isRoot : Bool} {path stem : Key} {n m c : Inner V} {b : UInt8} {d : Node V}
      {r : Option Retired} :
      n.Holds path stem → path ++ stem ++ [b] <+: key → n.load (.byte b) = some (.inner c) →
      Edit id key o false (path ++ stem ++ [b]) c (.relinked d) r →
      n.Alters m (.byte b) (some d) → m.lock = n.lock.stepped →
      m.Shaped isRoot stem → Edit id key o isRoot path n (.inPlace m) r

/-- The node that a change leaves in the slot. -/
def Change.node? : Change V → Option (Node V)
  | .inPlace n => some (.inner n)
  | .relinked c => some c
  | .unlinked => none

/-! ### Edited nodes are valid -/

/-- What is stored under a key, if anything, belongs where the key goes on. -/
theorem Node.under_mapLeaf {here key : Key} {o : Option V} (hkey : here <+: key) (c : Node V)
    (hc : (o.map fun v => Node.leaf ⟨key, v⟩) = some c) :
    c.Under here (Edge.ofKey key here.length) := by
  obtain ⟨v, -, rfl⟩ := Option.map_eq_some_iff.1 hc
  exact Node.under_leaf (l := ⟨key, v⟩) hkey

namespace Branch

variable {n m : Inner V} {path stem : Key}

/-- A node keeps its place when one child is exchanged for another that belongs there. -/
theorem Holds.update (h : n.Holds path stem) {edge : Edge} {o : Option (Node V)}
    (hstem : m.stem = n.stem) (hsound : m.body.Sound) (hidle : m.lock.Idle)
    (hload : m.load = Function.update n.load edge o)
    (ho : ∀ c, o = some c → c.Under (path ++ stem) edge) : m.Holds path stem := by
  refine ⟨⟨?_, ?_, hsound, hidle⟩, ?_⟩
  · rw [hstem]
    exact h.stem_length
  · rw [hstem]
    exact h.stem_head
  · intro e c hc
    rcases load_cases_of_update hload hc with ⟨rfl, hc⟩ | ⟨-, hc⟩
    · exact ho c hc
    · exact h.under e c hc

/-- A node keeps its place when a leaf is put on the edge of its key, or taken off there. -/
theorem Holds.updateLeaf (h : n.Holds path stem) {key : Key} {edge : Edge} {o : Option V}
    (hkey : path ++ stem <+: key) (hedge : Edge.ofKey key (path ++ stem).length = edge)
    (hstem : m.stem = n.stem) (hsound : m.body.Sound) (hidle : m.lock.Idle)
    (hload : m.load = Function.update n.load edge (o.map fun v => .leaf ⟨key, v⟩)) :
    m.Holds path stem :=
  h.update hstem hsound hidle hload (hedge ▸ Node.under_mapLeaf hkey)

/-- A node keeps its place when the child under a byte is exchanged for one that is valid there. -/
theorem Holds.updateChild (h : n.Holds path stem) {b : UInt8} {c : Node V}
    (halters : n.Alters m (.byte b) (some c)) (hidle : m.lock.Idle)
    (hc : c.Valid (path ++ stem ++ [b])) : m.Holds path stem :=
  h.update halters.stem_eq halters.sound hidle halters.load_eq fun _ hd => Option.some.inj hd ▸ hc

theorem fits_ofBytes {n : Inner V} (hstem : n.stem = .ofBytes stem stem.length)
    (hsound : n.body.Sound) (hidle : n.lock.Idle) : n.Fits stem := by
  refine ⟨by rw [hstem]; rfl, ?_, hsound, hidle⟩
  rw [hstem]
  show stem.take (min stem.length maxStemHead) = _
  rw [List.take_eq_take_iff]
  omega

theorem isLeast_node4 (count : Nat) : Kind.node4.IsLeast count := by
  intro j _
  cases j <;> decide

/-- The entries of a fork are its two children. -/
theorem IsFork.load_eq_some_iff {mid : Key} {id : NodeId} {e₁ e₂ e : Edge} {c₁ c₂ c : Node V}
    (h : m.IsFork id mid e₁ c₁ e₂ c₂) :
    m.load e = some c ↔ e = e₁ ∧ c₁ = c ∨ e = e₂ ∧ c₂ = c := by
  refine load_eq_some_iff_of_two ?_ ?_ ?_
  · rw [h.load_eq, Function.update_of_ne h.edges_ne, Function.update_self]
  · rw [h.load_eq, Function.update_self]
  · intro e he₁ he₂
    rw [h.load_eq, Function.update_of_ne he₂, Function.update_of_ne he₁]

/-- Two entries that belong below make a fork that belongs there. -/
theorem IsFork.holds {mid : Key} {id : NodeId} {e₁ e₂ : Edge} {c₁ c₂ : Node V}
    (h : m.IsFork id mid e₁ c₁ e₂ c₂) (h₁ : c₁.Under (path ++ mid) e₁)
    (h₂ : c₂.Under (path ++ mid) e₂) : m.Holds path mid := by
  have hidle : m.lock.Idle := by
    rw [h.lock_eq]
    exact VersionLock.idle_fresh
  refine ⟨fits_ofBytes h.stem_eq h.sound hidle, ?_⟩
  intro e c hc
  rcases h.load_eq_some_iff.1 hc with ⟨rfl, rfl⟩ | ⟨rfl, rfl⟩
  · exact h₁
  · exact h₂

theorem IsFork.valid {mid : Key} {id : NodeId} {e₁ e₂ : Edge} {c₁ c₂ : Node V}
    (h : m.IsFork id mid e₁ c₁ e₂ c₂) (h₁ : c₁.Under (path ++ mid) e₁)
    (h₂ : c₂.Under (path ++ mid) e₂) : (Node.inner m).Valid path := by
  -- two different edges are taken, so there are two entries
  have hcount : 2 ≤ m.entryCount := by
    have hl₁ : (e₁, c₁) ∈ m.entries :=
      (mem_entries h.sound).2 (h.load_eq_some_iff.2 (Or.inl ⟨rfl, rfl⟩))
    have hl₂ : (e₂, c₂) ∈ m.entries :=
      (mem_entries h.sound).2 (h.load_eq_some_iff.2 (Or.inr ⟨rfl, rfl⟩))
    rw [← length_entries h.sound]
    by_contra hlt
    obtain ⟨x, hx⟩ := List.length_eq_one_iff.1
      (show m.entries.length = 1 by have := List.length_pos_of_mem hl₁; omega)
    rw [hx, List.mem_singleton] at hl₁ hl₂
    exact h.edges_ne (congrArg Prod.fst (hl₁.trans hl₂.symm))
  refine Node.valid_inner_iff.2 ⟨mid, h.holds h₁ h₂, hcount, ?_⟩
  rw [h.kind_eq]
  exact isLeast_node4 _

/-- What is left of a node belongs where the rest of its stem begins. -/
theorem Holds.cut {mid rest : Key} {b : UInt8} (h : n.Holds path (mid ++ b :: rest)) :
    (n.cut rest).Holds (path ++ mid ++ [b]) rest := by
  refine ⟨fits_ofBytes rfl h.sound h.idle.stepped, ?_⟩
  intro e c hc
  have hunder := h.under e c hc
  have happ : path ++ mid ++ [b] ++ rest = path ++ (mid ++ b :: rest) := by simp
  rw [happ]
  exact hunder

/-- A node that takes the place of its parent belongs where the parent did. -/
theorem Holds.merge {below : Key} {b : UInt8} (h : m.Holds (path ++ stem ++ [b]) below) :
    (m.merge stem b).Holds path (stem ++ b :: below) := by
  refine ⟨⟨?_, ?_, h.sound, h.idle.stepped⟩, ?_⟩
  · show stem.length + 1 + m.stem.length = _
    rw [h.stem_length, List.length_append, List.length_cons]
    omega
  · show (stem ++ b :: m.stem.head).take (min (stem.length + 1 + m.stem.length) maxStemHead) = _
    rw [h.stem_head, h.stem_length]
    have hsplit : ∀ k : Nat, k ≤ maxStemHead →
        (stem ++ b :: below.take maxStemHead).take k = (stem ++ b :: below).take k := by
      intro k hk
      rw [List.take_append, List.take_append]
      congr 1
      cases hd : k - stem.length with
      | zero => rfl
      | succ j =>
        rw [List.take_succ_cons, List.take_succ_cons, List.take_take, Nat.min_eq_left (by omega)]
    rw [hsplit _ (Nat.min_le_right _ _), List.take_eq_take_iff, List.length_append,
      List.length_cons]
    omega
  · intro e c hc
    have hunder := h.under e c hc
    have happ : path ++ (stem ++ b :: below) = path ++ stem ++ [b] ++ below := by simp
    rw [happ]
    exact hunder

end Branch

variable {id : NodeId} {key : Key} {o : Option V} {r : Option Retired}

/-- An edit in place leaves a valid node, and one that relinks is not about the root and links a
    valid node. -/
def Change.Valid (isRoot : Bool) (path : Key) : Change V → Prop
  | .inPlace m => m.Valid isRoot path
  | .relinked c => isRoot = false ∧ c.Valid path
  | .unlinked => False

theorem Edit.valid {isRoot : Bool} {path : Key} {n : Inner V} {ch : Change V}
    (h : Edit id key o isRoot path n ch r) : ch.Valid isRoot path := by
  induction h with
  | @leaf isRoot path stem n m edge hn hkey hedge _ hm hlock hshape =>
    have hidle : m.lock.Idle := hlock ▸ hn.idle.stepped
    exact ⟨stem, hn.updateLeaf hkey hedge hm.stem_eq hm.sound hidle hm.load_eq, hshape⟩
  | @resized path stem n m edge hn hkey hedge _ _ hlock hstem hsound hload hshape =>
    have hidle : m.lock.Idle := hlock ▸ VersionLock.idle_fresh
    have hmh := hn.updateLeaf hkey hedge hstem hsound hidle hload
    exact ⟨rfl, Node.valid_inner_iff.2 ⟨stem, hmh, hshape⟩⟩
  | @forkedLeaf isRoot path stem mid n m fork b old v hn _ _ hold hkey hfork hm hlock hshape =>
    have hidle : m.lock.Idle := hlock ▸ hn.idle.stepped
    have hvalid := hfork.valid (Node.under_leaf hold) (Node.under_leaf (l := ⟨key, v⟩) hkey)
    exact ⟨stem, hn.updateChild hm hidle hvalid, hshape⟩
  | @forkedStem path mid rest n fork b v hn hshape _ hkey hfork =>
    refine ⟨rfl, hfork.valid (Node.under_leaf (l := ⟨key, v⟩) hkey) ?_⟩
    exact Node.valid_inner_iff.2 ⟨rest, hn.cut, hshape⟩
  | @collapsedLeaf path stem n edge edge' v l hn _ _ hload _ _ =>
    obtain ⟨hpre, -⟩ := (hn.under edge' _ hload).edge_of_has (Node.Has.leaf l)
    exact ⟨rfl, Node.Valid.leaf ((List.prefix_append path stem).trans hpre)⟩
  | @collapsedInner path stem n m edge b v hn _ _ hload _ _ =>
    obtain ⟨below, hm, hshape⟩ := hn.valid_of_load_inner hload
    exact ⟨rfl, Node.valid_inner_iff.2 ⟨stem ++ b :: below, hm.merge, hshape⟩⟩
  | @belowInPlace isRoot path stem n m c d b r hn _ _ _ hm hlock hshape ih =>
    have hidle : m.lock.Idle := hlock ▸ hn.idle
    exact ⟨stem, hn.updateChild hm hidle (Node.valid_inner_iff.2 ih), hshape⟩
  | @belowRelinked isRoot path stem n m c b d r hn _ _ _ hm hlock hshape ih =>
    have hidle : m.lock.Idle := hlock ▸ hn.idle.stepped
    exact ⟨stem, hn.updateChild hm hidle ih.2, hshape⟩

/-! ### The leaves below an edited node -/

/-- The leaves after `o` was stored under `key`, given the ones before. -/
def Stored (key : Key) (o : Option V) (before : Leaf V → Prop) (l : Leaf V) : Prop :=
  if l.key = key then o = some l.value else before l

/-- A key that was not there can be removed. -/
theorem stored_none {before : Leaf V → Prop} (hnone : ∀ v, ¬ before ⟨key, v⟩) (l : Leaf V) :
    before l ↔ Stored key none before l := by
  unfold Stored
  by_cases hl : l.key = key
  · subst hl
    rw [if_pos rfl]
    exact iff_of_false (hnone l.value) (by simp)
  · rw [if_neg hl]

/-- A leaf for a key that was not there stands beside the others. -/
theorem stored_of_new {v : V} {before : Leaf V → Prop} (hnew : ∀ l, before l → l.key ≠ key)
    (l : Leaf V) : before l ∨ l = ⟨key, v⟩ ↔ Stored key (some v) before l := by
  unfold Stored
  by_cases hl : l.key = key
  · rw [if_pos hl]
    constructor
    · rintro (hbefore | rfl)
      · exact absurd hl (hnew l hbefore)
      · rfl
    · intro hv
      cases hv
      exact Or.inr (by rw [← hl])
  · rw [if_neg hl]
    refine or_iff_left ?_
    rintro rfl
    exact hl rfl

namespace Branch

variable {n m : Inner V} {path stem : Key}

/-- When the child on the edge of the key has changed as it should, so has the node. -/
theorem Holds.stored_of_slot (hn : n.Holds path stem) (hm : m.Holds path stem) {edge : Edge}
    {o' : Option (Node V)} (hload : m.load = Function.update n.load edge o')
    (hedge : Edge.ofKey key (path ++ stem).length = edge)
    (hslot : ∀ l, (∃ c, o' = some c ∧ c.Has l) ↔
      Stored key o (fun l => ∃ c, n.load edge = some c ∧ c.Has l) l) (l : Leaf V) :
    (Node.inner m).Has l ↔ Stored key o (Node.inner n).Has l := by
  by_cases hl : Edge.ofKey l.key (path ++ stem).length = edge
  · rw [hm.has_iff_of_edge hl, hload, Function.update_self, hslot l]
    unfold Stored
    rw [hn.has_iff_of_edge hl]
  · have hlk : l.key ≠ key := fun h => hl (by rw [h, hedge])
    unfold Stored
    rw [if_neg hlk, hm.has_iff, hn.has_iff, hload, Function.update_of_ne hl]

/-- When the child under the byte of the key has changed as it should, so has the node. -/
theorem Holds.stored_of_child (hn : n.Holds path stem) (hm : m.Holds path stem) {b : UInt8}
    {c d : Node V} (hload : m.load = Function.update n.load (.byte b) (some d))
    (hedge : Edge.ofKey key (path ++ stem).length = .byte b) (hc : n.load (.byte b) = some c)
    (hchild : ∀ l, d.Has l ↔ Stored key o c.Has l) (l : Leaf V) :
    (Node.inner m).Has l ↔ Stored key o (Node.inner n).Has l := by
  refine hn.stored_of_slot hm hload hedge (fun l => ?_) l
  simpa [hc] using hchild l

/-- The leaves below a node with two children are those below the one and the other. -/
theorem has_iff_of_entries {e₁ e₂ : Edge} {c₁ c₂ : Node V}
    (h : ∀ {e c}, n.load e = some c ↔ e = e₁ ∧ c₁ = c ∨ e = e₂ ∧ c₂ = c) {l : Leaf V} :
    (Node.inner n).Has l ↔ c₁.Has l ∨ c₂.Has l := by
  rw [Node.has_inner_iff]
  constructor
  · rintro ⟨e, c, hc, hl⟩
    rcases h.1 hc with ⟨-, rfl⟩ | ⟨-, rfl⟩
    · exact Or.inl hl
    · exact Or.inr hl
  · rintro (hl | hl)
    · exact ⟨e₁, c₁, h.2 (Or.inl ⟨rfl, rfl⟩), hl⟩
    · exact ⟨e₂, c₂, h.2 (Or.inr ⟨rfl, rfl⟩), hl⟩

theorem IsFork.has_iff {mid : Key} {e₁ e₂ : Edge} {c₁ c₂ : Node V}
    (h : m.IsFork id mid e₁ c₁ e₂ c₂) {l : Leaf V} :
    (Node.inner m).Has l ↔ c₁.Has l ∨ c₂.Has l :=
  has_iff_of_entries h.load_eq_some_iff

theorem has_cut {rest : Key} {l : Leaf V} :
    (Node.inner (n.cut rest)).Has l ↔ (Node.inner n).Has l := by
  rw [Node.has_inner_iff, Node.has_inner_iff]
  rfl

theorem has_merge {b : UInt8} {l : Leaf V} :
    (Node.inner (m.merge stem b)).Has l ↔ (Node.inner m).Has l := by
  rw [Node.has_inner_iff, Node.has_inner_iff]
  rfl

/-- Storing a leaf, or none, on an edge that was free or held the key. -/
theorem stored_leaf {edge : Edge}
    (hfree : ∀ c, n.load edge = some c → ∃ v, c = .leaf ⟨key, v⟩) (l : Leaf V) :
    (∃ c, (o.map fun v => Node.leaf ⟨key, v⟩) = some c ∧ c.Has l) ↔
      Stored key o (fun l => ∃ c, n.load edge = some c ∧ c.Has l) l := by
  unfold Stored
  by_cases hl : l.key = key
  · rw [if_pos hl]
    constructor
    · rintro ⟨c, hc, hhas⟩
      obtain ⟨v, hv, rfl⟩ := Option.map_eq_some_iff.1 hc
      rw [Node.has_leaf_iff.1 hhas]
      exact hv
    · intro ho
      refine ⟨.leaf ⟨key, l.value⟩, by rw [ho]; rfl, Node.has_leaf_iff.2 ?_⟩
      rw [← hl]
  · rw [if_neg hl]
    constructor
    · rintro ⟨c, hc, hhas⟩
      obtain ⟨v, -, rfl⟩ := Option.map_eq_some_iff.1 hc
      exact absurd (congrArg Leaf.key (Node.has_leaf_iff.1 hhas)) hl
    · rintro ⟨c, hc, hhas⟩
      obtain ⟨v, rfl⟩ := hfree c hc
      exact absurd (congrArg Leaf.key (Node.has_leaf_iff.1 hhas)) hl

/-- What is below a collapsing node but for the key is below the child that is left. -/
theorem stored_of_two (hn : n.Holds path stem) {edge edge' : Edge} {v : V} {c : Node V}
    (hkey : n.load edge = some (.leaf ⟨key, v⟩)) (hc : n.load edge' = some c)
    (hne : edge' ≠ edge) (hrest : ∀ e, e ≠ edge → e ≠ edge' → n.load e = none) (l : Leaf V) :
    c.Has l ↔ Stored key none (Node.inner n).Has l := by
  obtain ⟨-, hedge⟩ := (hn.under edge _ hkey).edge_of_has (Node.Has.leaf _)
  unfold Stored
  by_cases hl : l.key = key
  · rw [if_pos hl]
    refine iff_of_false ?_ (by simp)
    intro hhas
    obtain ⟨-, hedge'⟩ := (hn.under edge' c hc).edge_of_has hhas
    exact hne (by rw [← hedge', hl]; exact hedge)
  · rw [if_neg hl, has_iff_of_entries (load_eq_some_iff_of_two hkey hc hrest)]
    constructor
    · exact Or.inr
    · rintro (hhas | hhas)
      · exact absurd (congrArg Leaf.key (Node.has_leaf_iff.1 hhas)) hl
      · exact hhas

end Branch

/-- An edit stores the value under the key, or removes the key, and leaves all other keys alone. -/
theorem Edit.stored {isRoot : Bool} {path : Key} {n : Inner V} {ch : Change V}
    (h : Edit id key o isRoot path n ch r) :
    ∀ c, ch.node? = some c → ∀ l, c.Has l ↔ Stored key o (Node.inner n).Has l := by
  induction h with
  | @leaf isRoot path stem n m edge hn hkey hedge hfree hm hlock _ =>
    intro c hc
    cases hc
    have hidle : m.lock.Idle := hlock ▸ hn.idle.stepped
    have hmh := hn.updateLeaf hkey hedge hm.stem_eq hm.sound hidle hm.load_eq
    exact hn.stored_of_slot hmh hm.load_eq hedge (Branch.stored_leaf hfree)
  | @resized path stem n m edge hn hkey hedge hfree _ hlock hstem hsound hload _ =>
    intro c hc
    cases hc
    have hidle : m.lock.Idle := hlock ▸ VersionLock.idle_fresh
    have hmh := hn.updateLeaf hkey hedge hstem hsound hidle hload
    exact hn.stored_of_slot hmh hload hedge (Branch.stored_leaf hfree)
  | @forkedLeaf isRoot path stem mid n m fork b old v hn hload ho hold hkey hfork hm hlock _ =>
    intro c hc
    cases hc
    have hidle : m.lock.Idle := hlock ▸ hn.idle.stepped
    have hvalid := hfork.valid (Node.under_leaf hold) (Node.under_leaf (l := ⟨key, v⟩) hkey)
    have hedge := Edge.ofKey_eq_byte_of_prefix ((List.prefix_append _ mid).trans hkey)
    refine hn.stored_of_child (hn.updateChild hm hidle hvalid) hm.load_eq hedge hload ?_
    intro l
    have hnew : ∀ l, (Node.leaf old).Has l → l.key ≠ key := by
      intro l hl hlkey
      rw [Node.has_leaf_iff.1 hl] at hlkey
      exact hfork.edges_ne (by rw [hlkey])
    rw [hfork.has_iff, Node.has_leaf_iff (k := ⟨key, v⟩), ho]
    exact stored_of_new hnew l
  | @forkedStem path mid rest n fork b v hn hshape ho hkey hfork =>
    intro c hc
    cases hc
    intro l
    have hnew : ∀ l, (Node.inner n).Has l → l.key ≠ key := by
      rintro l hl rfl
      -- a leaf below the node goes on with the byte that the key does not go on with
      have hpre : path ++ mid ++ [b] <+: l.key :=
        List.IsPrefix.trans ⟨rest, by simp⟩ (hn.prefix_of_has hl)
      exact hfork.edges_ne (Edge.ofKey_eq_byte_of_prefix hpre)
    rw [hfork.has_iff, Node.has_leaf_iff, Branch.has_cut, or_comm, ho]
    exact stored_of_new hnew l
  | @collapsedLeaf path stem n edge edge' v l hn ho hkey hload hne hrest =>
    intro c hc
    cases hc
    rw [ho]
    exact Branch.stored_of_two hn hkey hload hne hrest
  | @collapsedInner path stem n m edge b v hn ho hkey hload hne hrest =>
    intro c hc
    cases hc
    intro l
    rw [ho, Branch.has_merge]
    exact Branch.stored_of_two hn hkey hload hne hrest l
  | @belowInPlace isRoot path stem n m c d b r hn hkey hload hedit hm hlock _ ih =>
    intro c' hc'
    cases hc'
    have hidle : m.lock.Idle := hlock ▸ hn.idle
    have hmh := hn.updateChild hm hidle (Node.valid_inner_iff.2 hedit.valid)
    exact hn.stored_of_child hmh hm.load_eq (Edge.ofKey_eq_byte_of_prefix hkey) hload (ih _ rfl)
  | @belowRelinked isRoot path stem n m c b d r hn hkey hload hedit hm hlock _ ih =>
    intro c' hc'
    cases hc'
    have hidle : m.lock.Idle := hlock ▸ hn.idle.stepped
    have hmh := hn.updateChild hm hidle hedit.valid.2
    exact hn.stored_of_child hmh hm.load_eq (Edge.ofKey_eq_byte_of_prefix hkey) hload (ih _ rfl)

end RadixStore
