import Mathlib
import RadixStore.Cursor.Next
import RadixStore.Proofs.Tree.Reach

/-!
# What a cursor yields is in the tree

Wherever the checkpoints of a cursor come from, a leaf that it yields is found below a node that is
in the tree at that moment. This needs no trust in the lock words that the cursor compares: it tells
which values a cursor can yield, and not whether it passes over any.
-/

namespace RadixStore

variable {V : Type} {t : Tree V} {dir : Direction} {bound : Option Key}

theorem Branch.Valid.has_of_firstLeaf? {n : Inner V} {isRoot : Bool} {here : Key}
    {path : Key} {seen : Snapshot} {pos : Int} {stack : List Checkpoint} {f : Found V}
    (hn : n.Valid isRoot here) (h : n.firstLeaf? dir path seen pos stack = some f) :
    (Node.inner n).Has f.leaf := by
  obtain ⟨stem, hholds, -⟩ := hn
  have hnear := nearest_entryPast hholds.sound dir pos
  rw [Branch.firstLeaf?] at h
  split at h
  · simp at h
  · rename_i p l hentry
    rw [hentry] at hnear
    obtain ⟨edge, -, hload, -⟩ := hnear
    cases h
    exact Node.Has.inner hload (Node.Has.leaf l)
  · rename_i p m hentry
    have hsize := sizeOf_lt_of_entryPast hentry
    rw [hentry] at hnear
    obtain ⟨edge, -, hload, -⟩ := hnear
    obtain ⟨b, rfl⟩ := edge_of_load_inner hload
    split at h
    · simp at h
    · exact Node.Has.inner hload (has_of_firstLeaf? (hholds.valid_of_load_inner hload) h)
termination_by sizeOf n

namespace Tree

/-- What is found below a node of a checkpoint that holds is found below the root. -/
theorem Valid.has_of_resolve (ht : t.Valid) {cp : Checkpoint} {n : Inner V}
    (hn : t.resolve cp = .ok n) {pos : Int} {stack : List Checkpoint} {f : Found V}
    (h : n.firstLeaf? dir cp.path cp.seen pos stack = some f) : (Node.inner t.root).Has f.leaf := by
  unfold Tree.resolve at hn
  split at hn
  · simp at hn
  · rename_i m hfind
    obtain ⟨q, hreach, -, -⟩ := Branch.Valid.exists_reaches_of_find? ht hfind
    cases hv : m.lock.validate cp.seen with
    | error e => simp [hv, Except.map] at hn
    | ok _ =>
      simp only [hv, Except.map, Except.ok.injEq] at hn
      subst hn
      obtain ⟨r, hvalid⟩ := hreach.valid ht
      exact hreach.has (hvalid.has_of_firstLeaf? h)

theorem Valid.has_of_firstAfter? (ht : t.Valid) {stack fresh : List Checkpoint} {f : Found V}
    (h : t.firstAfter? dir stack fresh = some f) : (Node.inner t.root).Has f.leaf := by
  induction fresh with
  | nil => simp [firstAfter?] at h
  | cons cp fresh ih =>
    unfold firstAfter? at h
    split at h
    · exact ih h
    · rename_i n hn
      split at h
      · rename_i found hfound
        cases h
        exact ht.has_of_resolve hn hfound
      · exact ih h

/-- The two functions call each other, so one induction on the stack goes for both. -/
theorem Valid.has_of_advance_and_recover (ht : t.Valid) (stack : List Checkpoint) :
    (∀ f, (t.advance dir bound stack).1 = some f → (Node.inner t.root).Has f.leaf) ∧
      ∀ f, (t.recover dir bound stack).1 = some f → (Node.inner t.root).Has f.leaf := by
  induction stack with
  | nil =>
    constructor
    · intro f h
      simp [advance] at h
    · intro f h
      unfold recover at h
      split at h
      · simp at h
      · exact ht.has_of_firstAfter? h
  | cons cp stack ih =>
    constructor
    · intro f h
      unfold advance at h
      split at h
      · exact ih.2 f h
      · rename_i n hn
        split at h
        · rename_i found hfound
          cases h
          exact ht.has_of_resolve hn hfound
        · exact ih.1 f h
    · intro f h
      unfold recover at h
      split at h
      · exact ih.2 f h
      · split at h
        · exact ih.2 f h
        · split at h
          · rename_i found hfound
            cases h
            exact ht.has_of_firstAfter? hfound
          · exact ih.1 f h

end Tree

/-- A key that a cursor yields has, at that moment, the value that the cursor yields with it. -/
theorem Cursor.get?_of_next (ht : t.Valid) {c : Cursor} {l : Leaf V}
    (h : (c.next t).item = some l) : t.get? l.key = some l.value := by
  have hhas : (Node.inner t.root).Has l := by
    unfold Cursor.next at h
    split at h
    · simp at h
    · split at h
      · simp at h
      · rename_i stack _
        split at h
        · simp at h
        · rename_i found recoveries hadvance
          split at h
          · simp at h
          · cases h
            exact (ht.has_of_advance_and_recover stack).1 found (congrArg Prod.fst hadvance)
  exact ht.get?_eq_some_iff.2 hhas

end RadixStore
