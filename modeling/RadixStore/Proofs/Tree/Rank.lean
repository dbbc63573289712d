import Mathlib
import RadixStore.Proofs.Tree.Depth
import RadixStore.Proofs.Tree.Wear

/-!
# The rank of a node

The rank of an inner node is the number of sizes that are smaller than its own. The ranks of all inner
nodes of a tree are what its shape says when the number of nodes of each size is counted with the rank of
that size. A node has the rank of its children and its own, so that an exchange of one child changes it by
the difference of the two.
-/

namespace RadixStore

variable {V : Type}

/-! ### Rank -/

/-- How many sizes are smaller. -/
def Kind.rank : Kind → Nat
  | .node4 => 0
  | .node16 => 1
  | .node48 => 2
  | .node256 => 3

namespace Shape

/-- The ranks of all inner nodes together. -/
def rank (s : Shape) : Nat :=
  s.node16 + 2 * s.node48 + 3 * s.node256

theorem rank_under (s : Shape) (k : Kind) : (s.under k).rank = s.rank + k.rank := by
  cases k <;> simp [rank, under, Kind.rank] <;> omega

theorem rank_beside (s t : Shape) : (s.beside t).rank = s.rank + t.rank := by
  simp only [rank, beside]
  omega

end Shape

/-- The ranks of all inner nodes below and including a node. -/
def Node.rank (c : Node V) : Nat :=
  c.shape.rank

theorem Node.rank_leaf (l : Leaf V) : (Node.leaf l).rank = 0 := by
  rw [Node.rank, Node.shape]
  rfl

/-- The rank below and including an inner node is its own and those of its children. -/
theorem Node.rank_inner (n : Inner V) :
    (Node.inner n).rank = (n.body.toList.map fun e => e.2.rank).sum + n.kind.rank := by
  have hterminal : (if n.terminal.isSome then Shape.leaf else Shape.zero).rank = 0 := by
    split <;> rfl
  rw [Node.rank, Node.shape_inner, Shape.rank_under, Shape.sum_foldr_beside _ Shape.rank_beside,
    hterminal, List.map_map]
  rfl

namespace Branch

variable {n m : Inner V} {edge : Edge} {o : Option (Node V)} {c : Node V} {b : UInt8}

/-- The rank of what hangs off an edge. -/
def rankOf : Option (Node V) → Nat
  | none => 0
  | some c => c.rank

theorem rankOf_mapLeaf (o : Option (Leaf V)) : rankOf (o.map Node.leaf) = 0 := by
  cases o with
  | none => rfl
  | some l => exact Node.rank_leaf l

end Branch

theorem sum_listing {α : Type} (w : Option α → Nat) (hw : w none = 0) (f : UInt8 → Option α) :
    ((listing f).map fun e => w (some e.2)).sum = (allBytes.map fun b => w (f b)).sum := by
  unfold listing
  induction allBytes with
  | nil => rfl
  | cons b bytes ih =>
    cases hb : f b with
    | none =>
      rw [List.filterMap_cons_none (labelled_eq_none.2 hb), ih, List.map_cons, List.sum_cons, hb, hw,
        Nat.zero_add]
    | some c =>
      have hlabelled : labelled f b = some (b, c) := labelled_eq_some.2 ⟨hb, rfl⟩
      rw [List.filterMap_cons_some hlabelled, List.map_cons, List.sum_cons, ih, List.map_cons,
        List.sum_cons, hb]

/-- A sum over the edges goes through the terminal and the bytes. -/
theorem Edge.sum_eq (w : Edge → Nat) : ∑ e, w e = w .terminal + (allBytes.map fun b => w (.byte b)).sum := by
  have hnodup : (Edge.terminal :: allBytes.map Edge.byte).Nodup := by
    refine List.nodup_cons.2 ⟨by simp, ?_⟩
    exact (allBytes_ascending.imp fun h => UInt8.ne_of_lt h).map Edge.byte
      fun _ _ hne heq => hne (Edge.byte.inj heq)
  have huniv : (Edge.terminal :: allBytes.map Edge.byte).toFinset = Finset.univ := by
    ext e
    cases e <;> simp [mem_allBytes]
  rw [← huniv, List.sum_toFinset w hnodup, List.map_cons, List.sum_cons, List.map_map]
  rfl

namespace Branch

variable {n m : Inner V} {edge : Edge} {o : Option (Node V)} {c : Node V} {b : UInt8}

theorem rank_eq_sum (hn : n.body.Sound) :
    (Node.inner n).rank = ∑ e, rankOf (n.load e) + n.kind.rank := by
  have hterminal : rankOf (n.load .terminal) = 0 := rankOf_mapLeaf n.terminal
  rw [Node.rank_inner, hn.toList_eq, Edge.sum_eq, hterminal, Nat.zero_add]
  exact congrArg (· + n.kind.rank) (sum_listing rankOf rfl n.body.child?)

/-- Exchanging an entry changes the rank by that of the entry and that of the node itself. -/
theorem rank_update (hn : n.body.Sound) (hm : m.body.Sound) (h : m.load = Function.update n.load edge o) :
    (Node.inner m).rank + n.kind.rank + rankOf (n.load edge) =
      (Node.inner n).rank + m.kind.rank + rankOf o := by
  have hsum := sum_update rankOf h
  rw [rank_eq_sum hn, rank_eq_sum hm]
  omega

theorem Alters.rank_eq (h : n.Alters m edge o) (hn : n.body.Sound) :
    (Node.inner m).rank + rankOf (n.load edge) = (Node.inner n).rank + rankOf o := by
  have hrank := rank_update hn h.sound h.load_eq
  rw [h.kind_eq] at hrank
  omega

/-- The rank does not depend on the lock, on the stem or on the identity. -/
theorem rank_congr (hbody : m.body = n.body) : (Node.inner m).rank = (Node.inner n).rank := by
  rw [Node.rank_inner, Node.rank_inner, kind, kind, hbody]

/-! ### New nodes -/

theorem insertSorted_perm {α : Type} (b : UInt8) (c : α) (es : List (UInt8 × α)) :
    (Flat.insertSorted b c es).Perm ((b, c) :: es) := by
  induction es with
  | nil => exact .refl _
  | cons e es ih =>
    unfold Flat.insertSorted
    split
    · exact .refl _
    · exact (ih.cons e).trans (.swap (b, c) e es)

theorem rank_insertChild (hkind : n.kind = .node4) (h : n.insertChild b c = .ok m) :
    m.kind = .node4 ∧ (Node.inner m).rank = (Node.inner n).rank + c.rank := by
  obtain ⟨id, lock, stem, terminal, body⟩ := n
  cases body with
  | node4 f =>
    unfold insertChild Body.insert? at h
    dsimp only at h
    split at h
    · cases h
    · rename_i body hbody
      split at hbody
      · cases hbody
        cases h
        have hsum : ((Flat.insertSorted b c f.entries).map fun e => e.2.rank).sum =
            c.rank + (f.entries.map fun e => e.2.rank).sum :=
          ((insertSorted_perm b c f.entries).map fun e => e.2.rank).sum_eq
        refine ⟨rfl, ?_⟩
        rw [Node.rank_inner, Node.rank_inner]
        show ((Flat.insertSorted b c f.entries).map fun e => e.2.rank).sum + 0 =
          (f.entries.map fun e => e.2.rank).sum + 0 + c.rank
        omega
      · cases hbody
  | _ => cases hkind

theorem rank_place {l : Leaf V} (hkind : n.kind = .node4) (h : n.place edge l = .ok m) :
    m.kind = .node4 ∧ (Node.inner m).rank = (Node.inner n).rank := by
  cases edge with
  | terminal =>
    cases h
    exact ⟨hkind, rank_congr rfl⟩
  | byte b =>
    have hrank := rank_insertChild hkind h
    rwa [Node.rank_leaf] at hrank

theorem rank_empty (kind : Kind) (id : NodeId) (stem : Stem) :
    (empty kind id stem : Inner V).kind = kind ∧
      (Node.inner (empty kind id stem) : Node V).rank = kind.rank := by
  have hkind : (empty kind id stem : Inner V).kind = kind := Body.kind_empty kind
  have hlist : (empty kind id stem : Inner V).body.toList = [] := by
    have hsound : (empty kind id stem : Inner V).body.Sound := Body.sound_empty kind
    have hnone : (empty kind id stem : Inner V).body.child? = fun _ => none := Body.child?_empty kind
    rw [hsound.toList_eq, hnone, listing_none]
  refine ⟨hkind, ?_⟩
  rw [Node.rank_inner, hlist, hkind, List.map_nil, List.sum_nil, Nat.zero_add]

end Branch

end RadixStore
