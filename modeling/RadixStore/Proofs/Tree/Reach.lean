import Mathlib
import RadixStore.Cursor.Basic
import RadixStore.Proofs.Tree.Lookup

/-!
# Inner nodes and the ways to them

An inner node is reached on the bytes that lead to it: the stems of the nodes above it and the bytes
of the edges in between. On one path no two nodes are reached, and a leaf stands below the node
exactly when its key starts with the path. When no identity occurs twice, the identity of a node
determines the node and its path as well, and the node is found by identity and path.
-/

namespace RadixStore

variable {V : Type}

namespace Branch

/-! ### The whole stem -/

variable {n m : Inner V} {path stem : Key} {isRoot : Bool}

/-- The whole stem of a valid node is the one with which it holds its place. -/
theorem Holds.fullStem_of_valid (h : n.Holds path stem) (hn : n.Valid isRoot path) :
    n.fullStem path.length = .ok stem := by
  obtain ⟨s, hs, hshape⟩ := hn
  cases isRoot with
  | false =>
    have hshape : n.Shaped false stem := hshape
    exact h.fullStem hshape
  | true =>
    -- the stem of the root is empty
    have hlen : stem.length = s.length := h.stem_length.symm.trans hs.stem_length
    rw [hshape.1] at hlen
    have hnil : stem = [] := List.length_eq_zero_iff.1 hlen
    subst hnil
    have hshape : n.Shaped true [] := ⟨rfl, hshape.2⟩
    exact h.fullStem hshape

theorem Valid.exists_stem (hn : n.Valid isRoot path) :
    ∃ stem, n.Holds path stem ∧ n.fullStem path.length = .ok stem := by
  obtain ⟨stem, h, hs⟩ := hn
  exact ⟨stem, h, h.fullStem hs⟩

theorem Valid.holds_of_fullStem (hn : n.Valid isRoot path)
    (hstem : n.fullStem path.length = .ok stem) : n.Holds path stem := by
  obtain ⟨s, h, hs⟩ := hn.exists_stem
  rw [hs] at hstem
  cases hstem
  exact h

/-! ### What a node covers -/

/-- The bytes that lead to the children of a node reached on `path`: the path and the stem. -/
def covered (n : Inner V) (path : Key) : Key :=
  match n.fullStem path.length with
  | .ok stem => path ++ stem
  | .error _ => path

theorem covered_of_fullStem (h : n.fullStem path.length = .ok stem) :
    n.covered path = path ++ stem := by
  unfold covered
  rw [h]

theorem prefix_covered (n : Inner V) (path : Key) : path <+: n.covered path := by
  unfold covered
  split
  · exact List.prefix_append _ _
  · exact List.prefix_refl _

/-! ### Reached nodes -/

/-- The inner node `m` is reached on `q`, going down from the node `n` that is reached on `path`. -/
inductive Reaches : Inner V → Key → Inner V → Key → Prop
  | here {n : Inner V} {path : Key} : Reaches n path n path
  | child {n c m : Inner V} {path stem q : Key} {b : UInt8} :
      n.fullStem path.length = .ok stem → n.load (.byte b) = some (.inner c) →
      Reaches c (path ++ stem ++ [b]) m q → Reaches n path m q

namespace Reaches

variable {q r : Key} {k : Inner V} {l : Leaf V}

theorem isPrefix (h : Reaches n path m q) : path <+: q := by
  induction h with
  | here => exact List.prefix_refl _
  | @child n c m path stem q b _ _ _ ih =>
    exact ((List.prefix_append path stem).trans (List.prefix_append _ [b])).trans ih

theorem trans (h : Reaches n path m q) (h' : Reaches m q k r) : Reaches n path k r := by
  induction h with
  | here => exact h'
  | child hstem hload _ ih => exact .child hstem hload (ih h')

theorem valid (h : Reaches n path m q) (hn : n.Valid isRoot path) : ∃ r, m.Valid r q := by
  induction h generalizing isRoot with
  | here => exact ⟨isRoot, hn⟩
  | child hstem hload _ ih =>
    exact ih ((hn.holds_of_fullStem hstem).valid_of_load_inner hload)

theorem has (h : Reaches n path m q) (hl : (Node.inner m).Has l) : (Node.inner n).Has l := by
  induction h with
  | here => exact hl
  | child _ hload _ ih => exact Node.Has.inner hload (ih hl)

theorem length_lt {c : Inner V} {b : UInt8} (h : Reaches c (path ++ stem ++ [b]) m q) :
    path.length + stem.length < q.length := by
  have hle := h.isPrefix.length_le
  rw [length_path_append_byte] at hle
  exact hle

theorem has_of_prefix (h : Reaches n path m q) (hn : n.Valid isRoot path)
    (hl : (Node.inner n).Has l) (hq : q <+: l.key) : (Node.inner m).Has l := by
  induction h generalizing isRoot with
  | here => exact hl
  | child hstem hload hreach ih =>
    have hholds := hn.holds_of_fullStem hstem
    refine ih (hholds.valid_of_load_inner hload) ?_ hq
    exact hholds.has_of_edge hl (Edge.ofKey_eq_byte_of_prefix (hreach.isPrefix.trans hq)) hload

theorem eq_of_path {m' : Inner V} (h : Reaches n path m q) (h' : Reaches n path m' q) :
    m = m' := by
  induction h with
  | here =>
    cases h' with
    | here => rfl
    | child _ _ hreach =>
      have hlt := hreach.length_lt
      omega
  | @child n c m path stem q b hstem hload hreach ih =>
    cases h' with
    | here =>
      have hlt := hreach.length_lt
      omega
    | @child _ c' _ _ stem' _ b' hstem' hload' hreach' =>
      rw [hstem] at hstem'
      cases hstem'
      have hb : Edge.byte b = Edge.byte b' :=
        (Edge.ofKey_eq_byte_of_prefix hreach.isPrefix).symm.trans
          (Edge.ofKey_eq_byte_of_prefix hreach'.isPrefix)
      cases hb
      rw [hload] at hload'
      cases hload'
      exact ih hreach'

theorem find? (h : Reaches n path m q) (hn : n.Valid isRoot path) :
    n.find? m.id q path.length = some m := by
  induction h generalizing isRoot with
  | here =>
    rw [Branch.find?, if_pos rfl, if_pos rfl]
  | @child n c m path stem q b hstem hload hreach ih =>
    have hholds := hn.holds_of_fullStem hstem
    have hlt := hreach.length_lt
    have hedge : Edge.ofKey q (path.length + n.stem.length) = .byte b := by
      rw [hholds.stem_length, ← List.length_append]
      exact Edge.ofKey_eq_byte_of_prefix hreach.isPrefix
    have hbelow := ih (hholds.valid_of_load_inner hload)
    rw [length_path_append_byte, ← hholds.stem_length] at hbelow
    rw [Branch.find?, if_neg (by omega)]
    split
    · rename_i c' hload'
      rw [hedge, hload] at hload'
      cases hload'
      exact hbelow
    · rename_i hno
      rw [hedge] at hno
      exact absurd hload (hno c)

end Reaches

/-- What is found by an identity is a node with this identity, reached at the depth asked for. -/
theorem Valid.exists_reaches_of_find? {id : NodeId} {q : Key} {n m : Inner V} {isRoot : Bool}
    {path : Key} (hn : n.Valid isRoot path) (h : n.find? id q path.length = some m) :
    ∃ r, n.Reaches path m r ∧ r.length = q.length ∧ m.id = id := by
  rw [Branch.find?] at h
  split at h
  · rename_i hdepth
    split at h
    · rename_i hid
      cases h
      exact ⟨path, .here, hdepth, hid⟩
    · cases h
  · split at h
    · rename_i c hload
      have hlt := lt_length_of_load hload
      obtain ⟨stem, hholds, hstem⟩ := hn.exists_stem
      obtain ⟨b, hb⟩ := edge_of_load_inner hload
      rw [hb] at hload
      have hc := hholds.valid_of_load_inner hload
      have hlen := hholds.stem_length
      rw [hlen, ← length_path_append_byte path stem b] at h
      obtain ⟨r, hreach, hid⟩ := exists_reaches_of_find? hc h
      exact ⟨r, .child hstem hload hreach, hid⟩
    · cases h
termination_by q.length - path.length
decreasing_by
  simp only [List.length_append, List.length_singleton]
  omega

end Branch

/-! ### Identities -/

/-- An inner node at or below the node has the identity `i`. -/
inductive Node.Owns : Node V → NodeId → Prop
  | self (n : Inner V) : Owns (.inner n) n.id
  | child {n : Inner V} {edge : Edge} {c : Node V} {i : NodeId} :
      n.load edge = some c → Owns c i → Owns (.inner n) i

/-- No two inner nodes at or below the node have the same identity. -/
inductive Node.Distinct : Node V → Prop
  | leaf (l : Leaf V) : Distinct (.leaf l)
  | inner {n : Inner V} : (∀ edge c, n.load edge = some c → Distinct c) →
      (∀ edge c, n.load edge = some c → ¬ Owns c n.id) →
      (∀ edge edge' c c' i, n.load edge = some c → n.load edge' = some c' → Owns c i →
        Owns c' i → edge = edge') → Distinct (.inner n)

namespace Node

theorem not_owns_leaf (l : Leaf V) (i : NodeId) : ¬ (leaf l).Owns i := by
  intro h
  cases h

theorem owns_inner_iff {n : Inner V} {i : NodeId} :
    (inner n).Owns i ↔ i = n.id ∨ ∃ edge c, n.load edge = some c ∧ c.Owns i := by
  constructor
  · intro h
    cases h with
    | self => exact Or.inl rfl
    | child hload hc => exact Or.inr ⟨_, _, hload, hc⟩
  · rintro (rfl | ⟨edge, c, hload, hc⟩)
    · exact Owns.self n
    · exact Owns.child hload hc

theorem Distinct.child {n : Inner V} {edge : Edge} {c : Node V} (hd : (Node.inner n).Distinct)
    (hload : n.load edge = some c) : c.Distinct := by
  cases hd with
  | inner hchild _ _ => exact hchild edge c hload

end Node

/-- An identity that occurs below a valid node is that of a reached node. -/
theorem Branch.Valid.exists_reaches_of_owns {n : Inner V} {isRoot : Bool} {path : Key} {i : NodeId}
    (hn : n.Valid isRoot path) (h : (Node.inner n).Owns i) :
    ∃ m q, n.Reaches path m q ∧ m.id = i := by
  generalize hc : Node.inner n = c at h
  induction h generalizing n isRoot path with
  | self m =>
    cases hc
    exact ⟨_, path, .here, rfl⟩
  | @child m edge d i hload _ ih =>
    cases hc
    cases d with
    | leaf l =>
      rename_i hd
      exact absurd hd (Node.not_owns_leaf l i)
    | inner k =>
      obtain ⟨stem, hholds, hstem⟩ := hn.exists_stem
      obtain ⟨b, rfl⟩ := Branch.edge_of_load_inner hload
      obtain ⟨m, q, hreach, hid⟩ := ih (hholds.valid_of_load_inner hload) rfl
      exact ⟨m, q, .child hstem hload hreach, hid⟩

namespace Branch.Reaches

variable {n m m' : Inner V} {path q q' : Key}

theorem owns (h : Reaches n path m q) : (Node.inner n).Owns m.id := by
  induction h with
  | here => exact Node.Owns.self _
  | child _ hload _ ih => exact Node.Owns.child hload ih

theorem eq_of_id (h : Reaches n path m q) (h' : Reaches n path m' q')
    (hd : (Node.inner n).Distinct) (hid : m.id = m'.id) : m = m' ∧ q = q' := by
  induction h with
  | here =>
    cases h' with
    | here => exact ⟨rfl, rfl⟩
    | child _ hload hreach =>
      cases hd with
      | inner _ hself _ => exact absurd (hid ▸ hreach.owns) (hself _ _ hload)
  | child hstem hload hreach ih =>
    cases hd with
    | inner hchild hself hedges =>
      cases h' with
      | here => exact absurd (hid ▸ hreach.owns) (hself _ _ hload)
      | child hstem' hload' hreach' =>
        have hb := hedges _ _ _ _ _ hload hload' hreach.owns (hid ▸ hreach'.owns)
        cases hb
        rw [hload] at hload'
        cases hload'
        rw [hstem] at hstem'
        cases hstem'
        exact ih hreach' (hchild _ _ hload) hid

end Branch.Reaches

end RadixStore
