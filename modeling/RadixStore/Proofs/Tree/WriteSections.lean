import Mathlib
import RadixStore.Proofs.Tree.Evolution

/-!
# Counting write sections

How often a node has been write-locked while it is linked is counted along a run. An operation locks
no node twice, so a step counts once for a node whose lock word it changes. As long as no node is
write-locked 2 ^ 62 times, its word is four times the count, and no word ever becomes smaller.
-/

namespace RadixStore

variable {V : Type}

/-! ### The inner nodes of a tree -/

/-- The inner nodes at or below a node. -/
def Node.inners : Node V → List (Inner V)
  | .leaf _ => []
  | .inner n => n :: n.body.toList.attach.flatMap fun e => e.1.2.inners
termination_by c => sizeOf c
decreasing_by
  have hlt := Body.sizeOf_lt_of_mem e.2
  obtain ⟨id, lock, stem, terminal, body⟩ := n
  simp only [Node.inner.sizeOf_spec, Branch.mk.sizeOf_spec] at hlt ⊢
  omega

theorem Node.inners_leaf (l : Leaf V) : (Node.leaf l).inners = [] := by
  rw [Node.inners]

theorem Node.inners_inner (n : Inner V) :
    (Node.inner n).inners = n :: n.body.toList.flatMap fun e => e.2.inners := by
  rw [Node.inners, List.flatMap_def, List.flatMap_def]
  exact congrArg (fun ns => n :: List.flatten ns)
    (List.attach_map_val (f := fun e : UInt8 × Node V => e.2.inners))

/-- The inner nodes below a valid node are those that are reached from it. -/
theorem Branch.Valid.mem_inners_iff {n m : Inner V} {isRoot : Bool} {path : Key}
    (hn : n.Valid isRoot path) : m ∈ (Node.inner n).inners ↔ ∃ q, n.Reaches path m q := by
  obtain ⟨stem, hholds, hstem⟩ := hn.exists_stem
  rw [Node.inners_inner, List.mem_cons, List.mem_flatMap]
  have hchild : ∀ b c, (b, Node.inner c) ∈ n.body.toList →
      (m ∈ (Node.inner c).inners ↔ ∃ q, c.Reaches (path ++ stem ++ [b]) m q) := by
    intro b c hmem
    have hsize := Branch.sizeOf_lt_of_mem_body hmem
    have hload : n.load (.byte b) = some (.inner c) := hholds.sound.mem_toList.1 hmem
    obtain ⟨below, hc, hcshape⟩ := hholds.valid_of_load_inner hload
    exact Branch.Valid.mem_inners_iff ⟨below, hc, hcshape⟩
  constructor
  · rintro (rfl | ⟨⟨b, c⟩, hmem, hm⟩)
    · exact ⟨path, .here⟩
    · cases c with
      | leaf l =>
        rw [Node.inners_leaf] at hm
        cases hm
      | inner c =>
        obtain ⟨q, hq⟩ := (hchild b c hmem).1 hm
        exact ⟨q, .child hstem (hholds.sound.mem_toList.1 hmem) hq⟩
  · rintro ⟨q, hq⟩
    cases hq with
    | here => exact Or.inl rfl
    | @child _ c _ _ stem' _ b hstem' hload hq =>
      rw [hstem] at hstem'
      cases hstem'
      have hmem : (b, Node.inner c) ∈ n.body.toList := hholds.sound.mem_toList.2 hload
      exact Or.inr ⟨(b, .inner c), hmem, (hchild b c hmem).2 ⟨q, hq⟩⟩
termination_by sizeOf n

/-! ### Lock words -/

namespace Tree

variable {t u : Tree V}

/-- The lock word of the node called `i`. -/
def word? (t : Tree V) (i : NodeId) : Option UInt64 :=
  ((Node.inner t.root).inners.find? fun n => n.id = i).map fun n => n.lock.word

/-- Whether the node called `i`, linked before and after, was write-locked between the two trees. -/
def wrote (t u : Tree V) (i : NodeId) : Nat :=
  match t.word? i, u.word? i with
  | some a, some b => if a = b then 0 else 1
  | _, _ => 0

theorem wrote_le_one (t u : Tree V) (i : NodeId) : t.wrote u i ≤ 1 := by
  unfold wrote
  split
  · split
    · exact Nat.zero_le 1
    · exact le_rfl
  · exact Nat.zero_le 1

theorem wrote_of_none {i : NodeId} (h : t.word? i = none ∨ u.word? i = none) : t.wrote u i = 0 := by
  unfold wrote
  rcases h with h | h
  · rw [h]
  · rw [h]
    cases t.word? i <;> rfl

theorem Valid.word?_of_reaches (ht : t.Valid) (hnum : t.Numbered) {n : Inner V} {q : Key}
    (h : t.root.Reaches [] n q) : t.word? n.id = some n.lock.word := by
  have hmem := (Branch.Valid.mem_inners_iff ht).2 ⟨q, h⟩
  unfold word?
  cases hfind : (Node.inner t.root).inners.find? fun m => m.id = n.id with
  | none =>
    have hnone := List.find?_eq_none.1 hfind n hmem
    exact absurd (decide_eq_true rfl) hnone
  | some m =>
    have hfound := List.find?_some hfind
    have hid : m.id = n.id := of_decide_eq_true hfound
    obtain ⟨r, hr⟩ := (Branch.Valid.mem_inners_iff ht).1 (List.mem_of_find?_eq_some hfind)
    obtain ⟨rfl, -⟩ := hr.eq_of_id h hnum.distinct hid
    rfl

theorem Valid.word?_eq_none (ht : t.Valid) (hnum : t.Numbered) {i : NodeId} (hi : t.nextId ≤ i) :
    t.word? i = none := by
  unfold word?
  rw [Option.map_eq_none_iff, List.find?_eq_none]
  intro m hm hid
  obtain ⟨q, hq⟩ := (Branch.Valid.mem_inners_iff ht).1 hm
  have hlt := hnum.lt_nextId _ hq.owns
  have hid : m.id = i := of_decide_eq_true hid
  rw [hid] at hlt
  exact absurd hlt (Nat.not_lt_of_le hi)

/-- The lock word of every node is four times its count. -/
structure Counted (t : Tree V) (count : NodeId → Nat) : Prop where
  word_eq : ∀ n q, t.root.Reaches [] n q → n.lock.word.toNat = 4 * count n.id
  unused : ∀ i, t.nextId ≤ i → count i = 0

theorem counted_empty : (empty : Tree V).Counted fun _ => 0 where
  word_eq n q h := by
    cases h with
    | here => rfl
    | child _ hload _ =>
      rw [empty, Branch.load_empty] at hload
      cases hload
  unused _ _ := rfl

variable {count : NodeId → Nat}

/-- Without an overflow, counting goes on from one tree to the next, and no word becomes smaller. -/
theorem Counted.evolves (h : t.Counted count) (ht : t.Valid) (hnum : t.Numbered) (hu : u.Valid)
    (hunum : u.Numbered) (he : t.Evolves u) (hlt : ∀ i, count i + t.wrote u i < 2 ^ 62) :
    u.Counted fun i => count i + t.wrote u i := by
  refine ⟨?_, ?_⟩
  · intro n q hreach
    have hword := hu.word?_of_reaches hunum hreach
    rcases he.newOrOld n q hreach with ⟨hid, hlock⟩ | ⟨m, r, hm, hcont⟩
    · rw [hlock, hid, h.unused _ le_rfl, wrote_of_none (Or.inl (ht.word?_eq_none hnum le_rfl))]
      rfl
    · have hmword := ht.word?_of_reaches hnum hm
      have hcount := h.word_eq m r hm
      rw [← hcont.id_eq] at hmword hcount
      have hwrote : t.wrote u n.id = if m.lock.word = n.lock.word then 0 else 1 := by
        unfold wrote
        rw [hmword, hword]
      have hbound := hlt n.id
      rcases hcont.change with hstep | hsame
      · have hne : ¬ m.lock.word = n.lock.word := by
          intro heq
          rw [hstep] at heq
          exact VersionLock.stepped_ne m.lock (congrArg VersionLock.mk heq.symm)
        rw [if_neg hne] at hwrote
        rw [hwrote] at hbound ⊢
        rw [hstep, VersionLock.toNat_stepped, hcount]
        omega
      · rw [hsame.lock_eq, if_pos rfl] at hwrote
        rw [hwrote, hsame.lock_eq, hcount]
        omega
  · intro i hi
    have hti : t.nextId ≤ i := he.nextId_le.trans hi
    rw [h.unused i hti, wrote_of_none (Or.inr (hu.word?_eq_none hunum hi))]

/-- Where words are counts, no word is smaller when the counts are not. -/
theorem Counted.ascends {more : NodeId → Nat} (h : t.Counted count)
    (hu : u.Counted fun i => count i + more i) : t.Ascends u := by
  intro n q m r hn hm hid
  rw [h.word_eq n q hn, hu.word_eq m r hm, hid]
  omega

end Tree

end RadixStore
