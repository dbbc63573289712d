import Mathlib
import RadixStore.Proofs.Tree.Evolution
import RadixStore.Proofs.Tree.FiniteMap

/-!
# Trees that only grow

Where no key is ever removed or stored anew, a node is write-locked only when it gets an entry, when a
child gives way to a larger one, or when its stem is cut. Each time the node is worn a little, and as
no key is longer than some bound this cannot go on for ever: the lock words stay far below the point
where they would wrap around. So no word ever becomes smaller, however often the tree has changed.
-/

namespace RadixStore

variable {V : Type}

/-! ### Sums over the edges -/

instance Edge.instFintype : Fintype Edge :=
  .ofEquiv (Option UInt8)
    { toFun := fun o => o.elim .terminal .byte
      invFun := fun e =>
        match e with
        | .terminal => none
        | .byte b => some b
      left_inv := by rintro (_ | b) <;> rfl
      right_inv := by rintro (_ | b) <;> rfl }

theorem Edge.card_eq : Fintype.card Edge = 257 := by
  decide +kernel

namespace Branch

variable {n m : Inner V} {edge : Edge} {o : Option (Node V)} {c : Node V} {L : Nat}

/-- What is summed up over the entries changes by the entry that is exchanged. -/
theorem sum_update (w : Option (Node V) → Nat) (h : m.load = Function.update n.load edge o) :
    ∑ e, w (m.load e) + w (n.load edge) = ∑ e, w (n.load e) + w o := by
  have hm : ∑ e, w (m.load e) = w o + ∑ e ∈ Finset.univ \ {edge}, w (n.load e) := by
    rw [← Finset.sum_update_of_mem (Finset.mem_univ edge)]
    refine Finset.sum_congr rfl fun e _ => ?_
    rw [h, Function.update_apply, Function.update_apply]
    split <;> rfl
  have hn : ∑ e, w (n.load e) = w (n.load edge) + ∑ e ∈ Finset.univ \ {edge}, w (n.load e) := by
    rw [← Finset.sum_update_of_mem (Finset.mem_univ edge)]
    exact Finset.sum_congr rfl fun e _ => by rw [Function.update_eq_self]
  omega

/-- One for a child, nothing for an edge without one. -/
def tally : Option (Node V) → Nat
  | none => 0
  | some _ => 1

theorem tally_le_one (o : Option (Node V)) : tally o ≤ 1 := by
  cases o with
  | none => exact Nat.zero_le 1
  | some c => exact le_rfl

/-- How many edges are taken. -/
def taken (n : Inner V) : Nat :=
  ∑ e, tally (n.load e)

/-- How far what hangs off an edge has grown. A child is exchanged for one of greater extent. -/
def extent (L : Nat) : Option (Node V) → Nat
  | none => 0
  | some (.leaf _) => 1
  | some (.inner m) => 2 + (L - m.stem.length) * 300 + m.taken

/-- How far a node is worn, where no key is longer than `L`. -/
def wear (L : Nat) (n : Inner V) : Nat :=
  (L - n.stem.length) + ∑ e, extent L (n.load e)

theorem taken_le (n : Inner V) : n.taken ≤ 257 := by
  have hle := Finset.sum_le_card_nsmul Finset.univ (fun e => tally (n.load e)) 1
    fun e _ => tally_le_one _
  rw [Finset.card_univ, Edge.card_eq] at hle
  exact hle

theorem extent_le (L : Nat) (o : Option (Node V)) : extent L o ≤ 259 + L * 300 := by
  match o with
  | none => exact Nat.zero_le _
  | some (.leaf _) =>
    show 1 ≤ _
    omega
  | some (.inner m) =>
    have htaken := m.taken_le
    show 2 + (L - m.stem.length) * 300 + m.taken ≤ _
    omega

theorem wear_le (L : Nat) (n : Inner V) : n.wear L ≤ L + 257 * (259 + L * 300) := by
  have hle := Finset.sum_le_card_nsmul Finset.univ (fun e => extent L (n.load e)) (259 + L * 300)
    fun e _ => extent_le L _
  rw [Finset.card_univ, Edge.card_eq, smul_eq_mul] at hle
  unfold wear
  omega

theorem taken_update (h : m.load = Function.update n.load edge (some c)) :
    n.taken ≤ m.taken ∧ (n.load edge = none → n.taken < m.taken) := by
  have hsum : m.taken + tally (n.load edge) = n.taken + 1 := sum_update tally h
  have hone := tally_le_one (n.load edge)
  refine ⟨by omega, fun hfree => ?_⟩
  rw [hfree] at hsum
  have hsum : m.taken + 0 = n.taken + 1 := hsum
  omega

theorem Alters.extent_le (h : n.Alters m edge (some c)) :
    extent L (some (.inner n)) ≤ extent L (some (.inner m)) := by
  have htaken := (taken_update h.load_eq).1
  show 2 + (L - n.stem.length) * 300 + n.taken ≤ 2 + (L - m.stem.length) * 300 + m.taken
  rw [h.stem_eq]
  omega

/-- A node is worn by as much as what hangs off one edge grows. -/
theorem wear_update (hstem : m.stem = n.stem) (h : m.load = Function.update n.load edge o) :
    m.wear L + extent L (n.load edge) = n.wear L + extent L o := by
  have hsum := sum_update (extent L) h
  unfold wear
  rw [hstem]
  omega

end Branch

/-! ### Lock words of worn nodes -/

/-- No inner node at or below has been write-locked more often than it is worn. -/
inductive Node.Worn (L : Nat) : Node V → Prop
  | leaf (l : Leaf V) : Worn L (.leaf l)
  | inner {n : Inner V} : n.lock.word.toNat ≤ 4 * n.wear L →
      (∀ edge c, n.load edge = some c → Worn L c) → Worn L (.inner n)

theorem VersionLock.word_stepped_le (l : VersionLock) :
    l.stepped.word.toNat ≤ l.word.toNat + 4 := by
  rw [l.toNat_stepped]
  omega

section Worn

variable {n m : Inner V} {L : Nat}

theorem Node.Worn.word_le (h : (Node.inner n).Worn L) : n.lock.word.toNat ≤ 4 * n.wear L := by
  cases h with
  | inner hword _ => exact hword

theorem Node.Worn.child {edge : Edge} {c : Node V} (h : (Node.inner n).Worn L)
    (hload : n.load edge = some c) : c.Worn L := by
  cases h with
  | inner _ hchild => exact hchild edge c hload

theorem Node.Worn.reached {path q : Key} (h : (Node.inner n).Worn L) (hreach : n.Reaches path m q) :
    (Node.inner m).Worn L := by
  induction hreach with
  | here => exact h
  | child _ hload _ ih => exact ih (h.child hload)

/-- A node with another child is worn, if the child is. -/
theorem Node.Worn.update {edge : Edge} {c : Node V} (h : (Node.inner n).Worn L) (hc : c.Worn L)
    (hload : m.load = Function.update n.load edge (some c))
    (hword : m.lock.word.toNat ≤ 4 * m.wear L) : (Node.inner m).Worn L := by
  refine .inner hword ?_
  intro e d hd
  rcases Branch.load_cases_of_update hload hd with ⟨-, hd⟩ | ⟨-, hd⟩
  · cases hd
    exact hc
  · exact h.child hd

/-- A node whose lock word has gone on is worn by the growth of a child. -/
theorem Node.Worn.step {edge : Edge} {c : Node V} (h : (Node.inner n).Worn L) (hc : c.Worn L)
    (hstem : m.stem = n.stem) (hload : m.load = Function.update n.load edge (some c))
    (hlock : m.lock = n.lock.stepped)
    (hlt : Branch.extent L (n.load edge) < Branch.extent L (some c)) : (Node.inner m).Worn L := by
  have hwear := Branch.wear_update (L := L) hstem hload
  have hword := h.word_le
  have hstepped := n.lock.word_stepped_le
  refine h.update hc hload ?_
  rw [hlock]
  omega

theorem Branch.IsFork.worn {id : NodeId} {stem : Key} {e₁ e₂ : Edge} {c₁ c₂ : Node V}
    (h : m.IsFork id stem e₁ c₁ e₂ c₂) (h₁ : c₁.Worn L) (h₂ : c₂.Worn L) :
    (Node.inner m).Worn L := by
  refine .inner ?_ ?_
  · rw [h.lock_eq]
    exact Nat.zero_le _
  · intro e c hc
    rcases h.load_eq_some_iff.1 hc with ⟨-, rfl⟩ | ⟨-, rfl⟩
    · exact h₁
    · exact h₂

end Worn

/-! ### Edits of trees that only grow -/

section Edit

variable {id : NodeId} {key : Key} {v : V} {r : Option Retired} {isRoot : Bool} {path : Key}
  {n m : Inner V} {c : Node V} {ch : Change V} {L : Nat}

/-- The edge of a key that is not there is free. -/
theorem Branch.load_eq_none {edge : Edge} (hown : ∀ c, n.load edge = some c → ∃ w, c = .leaf ⟨key, w⟩)
    (hfree : ∀ w, ¬ (Node.inner n).Has ⟨key, w⟩) : n.load edge = none := by
  cases hc : n.load edge with
  | none => rfl
  | some c =>
    obtain ⟨w, rfl⟩ := hown c hc
    exact absurd (Node.Has.inner hc (Node.Has.leaf _)) (hfree w)

/-- A stem is no longer than the keys below it. -/
theorem Branch.Valid.stem_length_le (hn : n.Valid isRoot path)
    (hlength : ∀ l, (Node.inner n).Has l → l.key.length ≤ L) : n.stem.length ≤ L := by
  rcases Nat.eq_zero_or_pos n.stem.length with hzero | hpos
  · rw [hzero]
    exact Nat.zero_le L
  · obtain ⟨l, hl, hle⟩ := hn.exists_key_of_stem hpos
    have hkey := hlength l hl
    omega

/-- A child that takes the place of another one on the way of a new key has grown. -/
theorem Edit.extent_lt (h : Edit id key (some v) isRoot path n (.relinked c) r)
    (hfree : ∀ w, ¬ (Node.inner n).Has ⟨key, w⟩) (hstem : n.stem.length ≤ L) :
    Branch.extent L (some (.inner n)) < Branch.extent L (some c) := by
  cases h with
  | @resized _ stem _ m edge hn hkey hedge hown hid hlock hmstem hsound hload hshape =>
    have htaken := (Branch.taken_update hload).2 (Branch.load_eq_none hown hfree)
    show 2 + (L - n.stem.length) * 300 + n.taken < 2 + (L - m.stem.length) * 300 + m.taken
    rw [hmstem]
    omega
  | @forkedStem _ mid rest _ fork b w hn hshape ho hkey hfork =>
    have hlength := hn.stem_length
    have htaken := n.taken_le
    have hfstem : fork.stem.length = mid.length := by
      rw [hfork.stem_eq]
      rfl
    rw [List.length_append, List.length_cons] at hlength
    show 2 + (L - n.stem.length) * 300 + n.taken < 2 + (L - fork.stem.length) * 300 + fork.taken
    omega
  | collapsedLeaf _ ho => cases ho
  | collapsedInner _ ho => cases ho

theorem Edit.extent_le (h : Edit id key (some v) isRoot path n (.inPlace m) r) :
    Branch.extent L (some (.inner n)) ≤ Branch.extent L (some (.inner m)) := by
  cases h with
  | leaf _ _ _ _ halters => exact halters.extent_le
  | forkedLeaf _ _ _ _ _ _ halters => exact halters.extent_le
  | belowInPlace _ _ _ _ halters => exact halters.extent_le
  | belowRelinked _ _ _ _ halters => exact halters.extent_le

/-- Storing a key that was not there wears the nodes that it write-locks. -/
theorem Edit.worn (h : Edit id key (some v) isRoot path n ch r)
    (hfree : ∀ w, ¬ (Node.inner n).Has ⟨key, w⟩)
    (hlength : ∀ l, (Node.inner n).Has l → l.key.length ≤ L) (hw : (Node.inner n).Worn L) :
    ∀ c, ch.node? = some c → c.Worn L := by
  induction h with
  | @leaf isRoot path stem n m edge hn hkey hedge hown hm hlock hshape =>
    intro c hc
    cases hc
    refine hw.step (.leaf _) hm.stem_eq hm.load_eq hlock ?_
    rw [Branch.load_eq_none hown hfree]
    exact Nat.zero_lt_one
  | @resized path stem n m edge hn hkey hedge hown hid hlock hstem hsound hload hshape =>
    intro c hc
    cases hc
    refine hw.update (.leaf _) hload ?_
    rw [hlock]
    exact Nat.zero_le _
  | @forkedLeaf isRoot path stem mid n m fork b old w hn hload _ hold hkey hfork hm hlock hshape =>
    intro c hc
    cases hc
    refine hw.step (hfork.worn (.leaf _) (.leaf _)) hm.stem_eq hm.load_eq hlock ?_
    rw [hload]
    show 1 < 2 + (L - fork.stem.length) * 300 + fork.taken
    omega
  | @forkedStem path mid rest n fork b w hn hshape _ hkey hfork =>
    intro c hc
    cases hc
    -- the node is worn by the bytes that its stem loses
    have hle := Branch.Valid.stem_length_le ⟨_, hn, hshape⟩ hlength
    have hstem := hn.stem_length
    have hword := hw.word_le
    have hstepped := n.lock.word_stepped_le
    have hcut : (n.cut rest).wear L = (L - rest.length) + ∑ e, Branch.extent L (n.load e) := rfl
    have hwear : n.wear L = (L - n.stem.length) + ∑ e, Branch.extent L (n.load e) := rfl
    rw [List.length_append, List.length_cons] at hstem
    refine hfork.worn (.leaf _) (.inner ?_ fun edge c => hw.child)
    show n.lock.stepped.word.toNat ≤ _
    omega
  | collapsedLeaf _ ho => cases ho
  | collapsedInner _ ho => cases ho
  | @belowInPlace isRoot path stem n m c d b r hn hkey hload hedit hm hlock hshape ih =>
    intro e he
    cases he
    have hfreec := fun w h => hfree w (Node.Has.inner hload h)
    have hd := ih hfreec (fun l hl => hlength l (Node.Has.inner hload hl)) (hw.child hload) _ rfl
    have hwear := Branch.wear_update (L := L) hm.stem_eq hm.load_eq
    have hle := hedit.extent_le (L := L)
    have hword := hw.word_le
    rw [hload] at hwear
    refine hw.update hd hm.load_eq ?_
    rw [hlock]
    omega
  | @belowRelinked isRoot path stem n m c b d r hn hkey hload hedit hm hlock hshape ih =>
    intro e he
    cases he
    have hfreec := fun w h => hfree w (Node.Has.inner hload h)
    have hlengthc := fun l hl => hlength l (Node.Has.inner hload hl)
    have hd := ih hfreec hlengthc (hw.child hload) _ rfl
    have hstem := (hn.valid_of_load_inner hload).stem_length_le hlengthc
    refine hw.step hd hm.stem_eq hm.load_eq hlock ?_
    rw [hload]
    exact hedit.extent_lt hfreec hstem

end Edit

/-! ### Trees -/

namespace Tree

variable {t u : Tree V} {key : Key} {v : V} {r : Option Retired} {L : Nat}

/-- A tree that has only grown, by keys that are no longer than `L`. -/
structure Grown (L : Nat) (t : Tree V) : Prop where
  valid : t.Valid
  numbered : t.Numbered
  counted : ∃ m, t.Represents m
  length_le : ∀ l, (Node.inner t.root).Has l → l.key.length ≤ L
  worn : (Node.inner t.root).Worn L

theorem grown_empty (L : Nat) : (empty : Tree V).Grown L where
  valid := valid_empty
  numbered := numbered_empty
  counted := ⟨∅, .empty⟩
  length_le l hl := by
    obtain ⟨edge, c, hload, -⟩ := Node.has_inner_iff.1 hl
    rw [empty, Branch.load_empty] at hload
    cases hload
  worn := by
    refine .inner (Nat.zero_le _) fun edge c hload => ?_
    rw [empty, Branch.load_empty] at hload
    cases hload

theorem Grown.edited (h : t.Grown L) (hedit : t.Edited key (some v) u r) (hfree : t.get? key = none)
    (hsize : u.size = t.size + 1) (hkey : key.length ≤ L) : u.Grown L where
  valid := hedit.valid
  numbered := hedit.numbered h.numbered
  counted := by
    obtain ⟨m, hm⟩ := h.counted
    exact ⟨m.insert key v, hm.stored hedit (by rw [hsize, hfree]; rfl)⟩
  length_le l hl := by
    have hstored := (hedit.has_iff l).1 hl
    unfold Stored at hstored
    split at hstored
    · rename_i hlk
      rw [hlk]
      exact hkey
    · exact h.length_le l hstored
  worn := by
    refine hedit.edit.worn (fun w hw => ?_) h.length_le h.worn _ rfl
    rw [← h.valid.get?_eq_some_iff, hfree] at hw
    cases hw

/-- The words of such a tree stay far below the largest one. -/
theorem Grown.word_lt (h : t.Grown L) (hL : L ≤ 2 ^ 32) {n : Inner V} {q : Key}
    (hreach : t.root.Reaches [] n q) : n.lock.word.toNat + 4 < 2 ^ 64 := by
  have hword := (h.worn.reached hreach).word_le
  have hwear := n.wear_le L
  omega

/-- Where no word wraps around, none becomes smaller. -/
theorem Evolves.ascends (he : t.Evolves u) (hn : t.Numbered)
    (hlt : ∀ n q, t.root.Reaches [] n q → n.lock.word.toNat + 4 < 2 ^ 64) : t.Ascends u := by
  intro n q m r hreach hreach' hid
  rcases he.newOrOld m r hreach' with ⟨hnew, -⟩ | ⟨k, p, hk, hcont⟩
  · have hlt := hn.lt_nextId _ hreach.owns
    rw [← hid, hnew] at hlt
    exact absurd hlt (lt_irrefl _)
  · obtain ⟨rfl, -⟩ := hk.eq_of_id hreach hn.distinct (hcont.id_eq.symm.trans hid)
    rcases hcont.change with hstep | hsame
    · have hbound := hlt k q hreach
      rw [hstep, VersionLock.toNat_stepped]
      omega
    · rw [hsame.lock_eq]

/-- Making sure of a key lets such a tree grow, and no word becomes smaller. -/
theorem Grown.getOrInsert (h : t.Grown L) (hL : L ≤ 2 ^ 32) (hkey : key.length ≤ L)
    (make : Unit → V) :
    (t.getOrInsert key make).written.tree.Grown L ∧
      t.Evolves (t.getOrInsert key make).written.tree ∧
      t.Ascends (t.getOrInsert key make).written.tree := by
  obtain ⟨-, hcase⟩ := h.valid.getOrInsert key make
  cases hget : t.get? key with
  | some found =>
    rw [hget] at hcase
    obtain ⟨-, -, htree⟩ := hcase
    rw [htree]
    exact ⟨h, .refl t, .refl h.numbered⟩
  | none =>
    rw [hget] at hcase
    obtain ⟨-, -, hedit, hsize⟩ := hcase
    have hevolves := hedit.evolves h.valid
    have hascends := hevolves.ascends h.numbered fun n q => h.word_lt hL
    exact ⟨h.edited hedit hget hsize hkey, hevolves, hascends⟩

end Tree

end RadixStore
