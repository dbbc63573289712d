import Mathlib
import RadixStore.Proofs.Cursor.Step
import RadixStore.Proofs.Tree.Forks

/-!
# Stale checkpoints, and those that are not

A checkpoint is stale when its node is gone or has another lock word. Wherever its node comes to
stand, it covers the path on which the checkpoint entered it; so a checkpoint that is not stale
stands at its node, for a node that is found at the depth of the path is found on the path. This holds
however often the lock words have wrapped around. What a cursor puts on its stack stands, and is
not stale as long as the tree stays as it is.
-/

namespace RadixStore

variable {V : Type}

/-! ### Stale checkpoints -/

namespace Tree

variable {t : Tree V} {cp : Checkpoint} {n : Inner V}

/-- Whether the checkpoint no longer holds. -/
def isStale (t : Tree V) (cp : Checkpoint) : Bool :=
  match t.resolve cp with
  | .ok _ => false
  | .error _ => true

/-- How many of the checkpoints no longer hold. -/
def stale (t : Tree V) (stack : List Checkpoint) : Nat :=
  stack.countP t.isStale

theorem isStale_of_error {e : Fault} (h : t.resolve cp = .error e) : t.isStale cp = true := by
  unfold isStale
  rw [h]

theorem isStale_of_ok (h : t.resolve cp = .ok n) : t.isStale cp = false := by
  unfold isStale
  rw [h]

theorem stale_cons_of_error {e : Fault} (h : t.resolve cp = .error e) (stack : List Checkpoint) :
    t.stale (cp :: stack) = t.stale stack + 1 :=
  List.countP_cons_of_pos (isStale_of_error h)

theorem stale_cons_of_ok (h : t.resolve cp = .ok n) (stack : List Checkpoint) :
    t.stale (cp :: stack) = t.stale stack :=
  List.countP_cons_of_neg (by rw [isStale_of_ok h]; exact Bool.false_ne_true)

theorem stale_append_of_at (ht : t.Valid) {fresh : List Checkpoint}
    (h : ∀ cp ∈ fresh, ∃ n : Inner V, cp.At t n) (stack : List Checkpoint) :
    t.stale (fresh ++ stack) = t.stale stack := by
  induction fresh with
  | nil => rfl
  | cons cp fresh ih =>
    obtain ⟨n, hat⟩ := h cp List.mem_cons_self
    rw [List.cons_append, stale_cons_of_ok (hat.resolve ht)]
    exact ih fun cp hcp => h cp (List.mem_cons_of_mem _ hcp)

theorem resolve_eq_ok (h : t.resolve cp = .ok n) :
    t.root.find? cp.id cp.path 0 = some n ∧ n.lock.word = cp.seen.word := by
  unfold resolve VersionLock.validate at h
  split at h
  · cases h
  · rename_i m hfind
    by_cases hword : m.lock.word = cp.seen.word
    · rw [if_pos hword] at h
      cases h
      exact ⟨hfind, hword⟩
    · rw [if_neg hword] at h
      cases h

end Tree

/-! ### Checkpoints in line -/

namespace Checkpoint

variable {t u : Tree V} {cp : Checkpoint} {n : Inner V}

/-- Wherever the node of the checkpoint stands, it covers the path on which it was entered. -/
structure Rooted (t : Tree V) (cp : Checkpoint) : Prop where
  lt_nextId : cp.id < t.nextId
  prefix_covered : ∀ n q, t.root.Reaches [] n q → n.id = cp.id → cp.path <+: n.covered q

theorem At.rooted (h : cp.At t n) (hnum : t.Numbered) : cp.Rooted t where
  lt_nextId := by
    rw [← h.id_eq]
    exact hnum.lt_nextId _ h.reached.owns
  prefix_covered m q hreach hid := by
    obtain ⟨rfl, rfl⟩ := hreach.eq_of_id h.reached hnum.distinct (hid.trans h.id_eq.symm)
    exact m.prefix_covered _

theorem Rooted.keepsCovers (h : cp.Rooted t) (he : t.KeepsCovers u) : cp.Rooted u where
  lt_nextId := lt_of_lt_of_le h.lt_nextId he.nextId_le
  prefix_covered k q hreach hid := by
    rcases he.newOrCovers k q hreach with hnew | ⟨m, r, hm, hmid, hcovered⟩
    · exact absurd (hid.symm.trans hnew) (ne_of_lt h.lt_nextId)
    · rw [← hcovered]
      exact h.prefix_covered m r hm (hmid.trans hid)

/-- A checkpoint that holds stands at its node. -/
theorem Rooted.at_of_resolve (h : cp.Rooted t) (ht : t.Valid) (hn : t.resolve cp = .ok n) :
    cp.At t n := by
  obtain ⟨hfind, hword⟩ := Tree.resolve_eq_ok hn
  obtain ⟨q, hreach, hlen, hid⟩ := Branch.Valid.exists_reaches_of_find? ht hfind
  have hpre : cp.path <+: n.covered q := h.prefix_covered n q hreach hid
  -- two prefixes of what the node covers, of one length
  have hpath : cp.path = q :=
    (List.prefix_of_prefix_length_le hpre (n.prefix_covered q) hlen.ge).eq_of_length hlen.symm
  exact ⟨hpath ▸ hreach, hid, hword⟩

theorem At.moveTo (h : cp.At t n) (pos : Int) : Checkpoint.At t { cp with pos } n :=
  ⟨h.reached, h.id_eq, h.word_eq⟩

end Checkpoint

/-- The checkpoints stand in line on the way of `key`, deepest first, as far as they hold. -/
inductive Line (t : Tree V) : Key → List Checkpoint → Prop
  | nil {key : Key} : Line t key []
  | cons {key : Key} {cp : Checkpoint} {stack : List Checkpoint} : cp.Rooted t → cp.path <+: key →
      Line t cp.path stack → Line t key (cp :: stack)

namespace Line

variable {t u : Tree V} {key more : Key} {stack : List Checkpoint}

theorem mono (h : Line t key stack) (hkey : key <+: more) : Line t more stack := by
  cases h with
  | nil => exact .nil
  | cons hcp hpath hline => exact .cons hcp (hpath.trans hkey) hline

theorem keepsCovers (h : Line t key stack) (he : t.KeepsCovers u) : Line u key stack := by
  induction h with
  | nil => exact .nil
  | cons hcp hpath _ ih => exact .cons (hcp.keepsCovers he) hpath ih

end Line

/-! ### Seeking puts checkpoints in line -/

variable {t : Tree V} {stack : List Checkpoint}

/-- The checkpoints of a descent stand in line above those there are. -/
theorem Branch.Sought.in_line {dir : Direction} {bound path : Key} {n : Inner V}
    {fresh : List Checkpoint} (h : Branch.Sought dir bound n path fresh) (hnum : t.Numbered)
    (hreach : t.root.Reaches [] n path) (hpath : path <+: bound) (hline : Line t path stack) :
    Line t bound (fresh ++ stack) := by
  induction h generalizing stack with
  | spent _ => exact hline.mono hpath
  | @split n path pos _ =>
    have hat : Checkpoint.At t ⟨n.id, path, ⟨n.lock.word⟩, pos⟩ n := ⟨hreach, rfl, rfl⟩
    exact .cons (hat.rooted hnum) hpath hline
  | @down n m path stem b fresh hstem hload hbelow _ ih =>
    have hat : Checkpoint.At t ⟨n.id, path, ⟨n.lock.word⟩, (Edge.byte b).position⟩ n :=
      ⟨hreach, rfl, rfl⟩
    rw [List.append_assoc]
    exact ih (hreach.trans (.child hstem hload .here)) hbelow
      (.cons (hat.rooted hnum) ((List.prefix_append path stem).trans (List.prefix_append _ [b])) hline)

/-- The bound, if there is one, has the path for a prefix. -/
def OnWay (bound : Option Key) (path : Key) : Prop :=
  ∀ key, bound = some key → path <+: key

theorem Checkpoint.At.seekFrom {cp : Checkpoint} {n : Inner V} (h : cp.At t n) (ht : t.Valid)
    (hnum : t.Numbered) (dir : Direction) {bound : Option Key} (hbound : OnWay bound cp.path)
    (hline : Line t cp.path stack) :
    ∃ fresh key, n.seekFrom dir bound cp.path cp.seen [] = .ok fresh ∧
      (∀ c ∈ fresh, ∃ m, c.At t m) ∧ OnWay bound key ∧ Line t key (fresh ++ stack) := by
  obtain ⟨r, hn⟩ := h.reached.valid ht
  rw [h.seen_eq]
  cases bound with
  | none =>
    have hat : Checkpoint.At t ⟨n.id, cp.path, ⟨n.lock.word⟩, dir.start⟩ n := ⟨h.reached, rfl, rfl⟩
    refine ⟨_, cp.path, rfl, ?_, fun key hkey => (by cases hkey),
      .cons (hat.rooted hnum) (List.prefix_refl _) hline⟩
    intro c hc
    rw [List.mem_singleton.1 hc]
    exact ⟨n, hat⟩
  | some bound =>
    have hpath := hbound bound rfl
    obtain ⟨fresh, hseek, hsought⟩ := hn.exists_sought dir hpath []
    rw [List.append_nil] at hseek
    refine ⟨fresh, bound, hseek, hsought.stands h.reached, ?_,
      hsought.in_line hnum h.reached hpath hline⟩
    intro key hkey
    cases hkey
    exact List.prefix_refl _

/-- Seeking from the root succeeds, and the checkpoints stand in line. -/
theorem Tree.Valid.seek_in_line (ht : t.Valid) (hnum : t.Numbered) (dir : Direction)
    (bound : Option Key) :
    ∃ fresh key, t.seek dir bound = .ok fresh ∧ (∀ c ∈ fresh, ∃ m, c.At t m) ∧
      OnWay bound key ∧ Line t key fresh := by
  have hat : Checkpoint.At t ⟨t.root.id, [], ⟨t.root.lock.word⟩, 0⟩ t.root := ⟨.here, rfl, rfl⟩
  obtain ⟨fresh, key, hfresh, hstand, hkey, hline⟩ := hat.seekFrom ht hnum dir
    (fun key _ => List.nil_prefix) Line.nil
  obtain ⟨stem, hholds, -⟩ := ht.exists_stem
  rw [List.append_nil] at hline
  refine ⟨fresh, key, ?_, hstand, hkey, hline⟩
  unfold Tree.seek
  rw [hholds.liveSnapshot]
  exact hfresh

end RadixStore
