import Mathlib
import RadixStore.Cursor.Next
import RadixStore.Proofs.Tree.Evolution

/-!
# Checkpoints while the tree changes

A checkpoint stands as long as its node is found on its path with the lock word seen; it has expired
when the node is gone or every node of that identity has a greater word. While no word wraps around,
each checkpoint of an open cursor is always the one or the other, whatever happens to the tree. And
where it stands, its position still points at the same thing: at the path of the next checkpoint, or
at the leaf with the key that was yielded last.
-/

namespace RadixStore

variable {V : Type}

/-- What the position of a checkpoint points at: the leaf with a key, or an inner node on a path. -/
inductive Target where
  | leaf (key : Key)
  | node (path : Key)

/-- The bytes that lead to a target. -/
def Target.bytes : Target → Key
  | .leaf key => key
  | .node path => path

/-- In the node that is reached on `path` the position `pos` is the one of the target. -/
def Branch.Points (n : Inner V) (path : Key) (pos : Int) : Target → Prop
  | .leaf key => ∃ edge l, edge.position = pos ∧ n.load edge = some (.leaf l) ∧ l.key = key
  | .node p => ∃ stem b, (Edge.byte b).position = pos ∧ n.fullStem path.length = .ok stem ∧
      p = path ++ stem ++ [b]

theorem Branch.Unchanged.points {m m' : Inner V} {q q' : Key} (h : m.Unchanged q m' q') {pos : Int}
    {target : Target} (hp : m.Points q pos target) : m'.Points q' pos target := by
  cases target with
  | leaf key =>
    obtain ⟨edge, l, hpos, hload, hkey⟩ := hp
    have htable := h.table edge
    rw [hload] at htable
    cases hload' : m'.load edge with
    | none =>
      rw [hload'] at htable
      cases htable
    | some c =>
      rw [hload'] at htable
      cases htable with
      | some halike =>
        cases c with
        | leaf l' =>
          have hsame : l = l' := halike
          exact ⟨edge, l', hpos, hload', hsame ▸ hkey⟩
        | inner n => exact halike.elim
  | node p =>
    obtain ⟨stem, b, hpos, hstem, hp⟩ := hp
    exact ⟨stem, b, hpos, h.fullStem_eq.trans hstem, by rw [h.path_eq]; exact hp⟩

namespace Checkpoint

variable {t u : Tree V} {cp : Checkpoint} {n : Inner V} {target : Target}

/-- The checkpoint stands at the node `n`. -/
structure At (t : Tree V) (cp : Checkpoint) (n : Inner V) : Prop where
  reached : t.root.Reaches [] n cp.path
  id_eq : n.id = cp.id
  word_eq : n.lock.word = cp.seen.word

/-- No node of this identity has the lock word that was seen, nor will one have it again. -/
def Expired (t : Tree V) (cp : Checkpoint) : Prop :=
  ∀ n q, t.root.Reaches [] n q → n.id = cp.id → cp.seen.word.toNat < n.lock.word.toNat

/-- The checkpoint stands and points at the target, or it has expired. -/
def Holds (t : Tree V) (cp : Checkpoint) (target : Target) : Prop :=
  cp.Expired t ∨ ∃ n, cp.At t n ∧ n.Points cp.path cp.pos target

theorem At.resolve (h : cp.At t n) (ht : t.Valid) : t.resolve cp = .ok n := by
  have hfind : t.root.find? cp.id cp.path 0 = some n := by
    rw [← h.id_eq]
    exact h.reached.find? ht
  unfold Tree.resolve VersionLock.validate
  rw [hfind]
  dsimp only
  rw [if_pos h.word_eq]
  rfl

theorem Expired.resolve (h : cp.Expired t) (ht : t.Valid) : ∃ e, t.resolve cp = .error e := by
  unfold Tree.resolve VersionLock.validate
  cases hfind : t.root.find? cp.id cp.path 0 with
  | none => exact ⟨_, rfl⟩
  | some n =>
    obtain ⟨q, hreach, -, hid⟩ := Branch.Valid.exists_reaches_of_find? ht hfind
    have hlt := h n q hreach hid
    have hne : n.lock.word ≠ cp.seen.word := by
      intro heq
      rw [heq] at hlt
      exact lt_irrefl _ hlt
    dsimp only
    rw [if_neg hne]
    exact ⟨_, rfl⟩

end Checkpoint

/-- Whatever happens to the tree, a checkpoint goes on to hold or expires. -/
theorem Checkpoint.Holds.evolves {t u : Tree V} {cp : Checkpoint} {target : Target}
    (h : cp.Holds t target) (hid : cp.id < t.nextId) (hn : t.Numbered) (he : t.Evolves u)
    (ha : t.Ascends u) : cp.Holds u target := by
  -- unless it has expired, some node of its identity has a word that is not greater
  by_cases hexp : cp.Expired u
  · exact Or.inl hexp
  · unfold Checkpoint.Expired at hexp
    push Not at hexp
    obtain ⟨k, r, hreach, hkid, hle⟩ := hexp
    rcases he.newOrOld k r hreach with ⟨hnew, -⟩ | ⟨m, q, hm, hcont⟩
    · exact absurd (hkid.symm.trans hnew) (ne_of_lt hid)
    · have hmid : m.id = cp.id := hcont.id_eq.symm.trans hkid
      have hasc := ha m q k r hm hreach hcont.id_eq
      rcases h with hexp | ⟨n, hat, hpoints⟩
      · have hlt := hexp m q hm hmid
        omega
      · obtain ⟨rfl, rfl⟩ := hm.eq_of_id hat.reached hn.distinct (hmid.trans hat.id_eq.symm)
        rw [hat.word_eq] at hasc
        rcases hcont.change with hstep | hsame
        · have hword : k.lock.word = cp.seen.word := UInt64.toNat_inj.1 (le_antisymm hle hasc)
          rw [hstep, ← hat.word_eq] at hword
          exact absurd (congrArg VersionLock.mk hword) (VersionLock.stepped_ne m.lock)
        · have hpath := hsame.path_eq
          subst hpath
          refine Or.inr ⟨k, ⟨hreach, hkid, ?_⟩, hsame.points hpoints⟩
          rw [hsame.lock_eq]
          exact hat.word_eq

/-- The checkpoints lead from the root to the target, deepest first. -/
inductive Trail (t : Tree V) : Target → List Checkpoint → Prop
  | root : Trail t (.node []) []
  | step {target : Target} {cp : Checkpoint} {stack : List Checkpoint} : cp.id < t.nextId →
      cp.path <+: target.bytes → cp.Holds t target → Trail t (.node cp.path) stack →
      Trail t target (cp :: stack)

theorem Trail.evolves {t u : Tree V} {target : Target} {stack : List Checkpoint}
    (h : Trail t target stack) (hn : t.Numbered) (he : t.Evolves u) (ha : t.Ascends u) :
    Trail u target stack := by
  induction h with
  | root => exact .root
  | step hid hpath hholds _ ih =>
    exact .step (lt_of_lt_of_le hid he.nextId_le) hpath (hholds.evolves hid hn he ha) ih

end RadixStore
