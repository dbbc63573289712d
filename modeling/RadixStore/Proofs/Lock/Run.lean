import Mathlib
import RadixStore.Proofs.Lock.Section
import RadixStore.Proofs.Names
import RadixStore.Script.Lock

/-!
# What the word of a lock counts

A script grants guards on its locks and ends the write sections that they stand for, one way or the
other. The word of a lock counts both: four for every section that has ended, two for the guard that
is live, and one once a section was the last. As at most one of the latter two is the case, neither is
ever carried into the counter but by the end of a section, whichever snapshots are tried on the lock
and however often the counter has wrapped around.
-/

namespace RadixStore

namespace VersionLock

/-! ### Words by their two low bits -/

/-- A writer holds the lock when bit 1 of its word is set. -/
theorem isLocked_eq (l : VersionLock) : l.isLocked = decide (2 ≤ l.word.toNat % 4) := by
  by_cases h : l.word.toNat % 4 < 2
  · rw [not_locked_of_mod_four h, eq_comm, decide_eq_false_iff_not]
    omega
  · have hbit : l.word.toNat.testBit 1 = true := by
      rw [Nat.testBit_eq_decide_div_mod_eq, decide_eq_true_eq]
      omega
    have hword : (l.word &&& lockedBit).toNat = 2 := by
      have hand := Nat.and_two_pow l.word.toNat 1
      rw [hbit] at hand
      rw [UInt64.toNat_and]
      exact hand
    have hne : l.word &&& lockedBit ≠ 0 := by
      intro hzero
      rw [hzero] at hword
      cases hword
    rw [isLocked, bne_iff_ne.2 hne, eq_comm, decide_eq_true_iff]
    omega

/-- The write section ends, and it is the last one if `last` says so. -/
def close (last : Bool) (l : VersionLock) : VersionLock :=
  if last then l.retire else l.release

theorem toNat_close (last : Bool) (l : VersionLock) :
    (l.close last).word.toNat = (l.word.toNat + 2 + last.toNat) % 2 ^ 64 := by
  cases last
  · exact UInt64.toNat_add l.word 2
  · exact UInt64.toNat_add l.word 3

/-- Exclusive access is granted on an idle lock only, and sets bit 1. -/
theorem idle_of_upgrade {l held : VersionLock} {v : Snapshot} (hv : v.word.toNat % 4 < 2)
    (h : l.upgrade v = .ok held) : l.Idle ∧ held = ⟨l.word + 2⟩ := by
  unfold upgrade at h
  split at h
  · cases h
  · rename_i hlinked
    split at h
    · rename_i hword
      have hodd : ¬ v.word.toNat % 2 = 1 := by
        have hobsolete := isObsolete_eq ⟨v.word⟩
        intro hodd
        rw [decide_eq_true hodd] at hobsolete
        exact hlinked hobsolete
      have hidle : l.Idle := by
        show l.word.toNat % 4 = 0
        rw [hword]
        omega
      refine ⟨hidle, ?_⟩
      rw [← hidle.word_or_locked, hword]
      exact (Except.ok.inj h).symm
    · cases h

/-- A snapshot is taken of a word without bit 1. -/
theorem snapshot_mod_four {l : VersionLock} {v : Snapshot} (h : l.snapshot = .ok v) :
    v.word.toNat % 4 < 2 := by
  unfold snapshot at h
  split at h
  · cases h
  · rename_i hfree
    obtain rfl := Except.ok.inj h
    rw [isLocked_eq, decide_eq_true_eq] at hfree
    exact not_le.1 hfree

theorem snapshot_of_liveSnapshot {l : VersionLock} {v : Snapshot} (h : l.liveSnapshot = .ok v) :
    l.snapshot = .ok v := by
  unfold liveSnapshot at h
  cases hs : l.snapshot with
  | error e =>
    rw [hs] at h
    cases h
  | ok w =>
    rw [hs] at h
    have h : (if w.isObsolete = true then Except.error Fault.obsolete else Except.ok w) = .ok v := h
    split at h
    · cases h
    · exact h

theorem idle_of_acquire {l held : VersionLock} (h : l.acquire = .ok held) :
    l.Idle ∧ held = ⟨l.word + 2⟩ := by
  unfold acquire at h
  cases hs : l.liveSnapshot with
  | error e =>
    rw [hs] at h
    cases h
  | ok v =>
    rw [hs] at h
    exact idle_of_upgrade (snapshot_mod_four (snapshot_of_liveSnapshot hs)) h

end VersionLock

namespace LockScript

/-! ### Sections that end -/

/-- The end of a write section on a lock, and whether it was the last one there. -/
structure Ending where
  lock : Nat
  last : Bool
deriving DecidableEq, Repr

/-- How many write sections have ended on lock `i`. -/
def sections (ends : List Ending) (i : Nat) : Nat :=
  ends.countP fun e => e.lock = i

/-- Whether the last write section has ended on lock `i`. -/
def isRetired (ends : List Ending) (i : Nat) : Bool :=
  ends.any fun e => e = ⟨i, true⟩

namespace State

/-- How many guards are live on lock `i`. -/
def live (st : State) (i : Nat) : Nat :=
  st.guards.countP fun g => g.2 = i

/-- The write section that ends when `guard` is given up, if it is live. -/
def endingOf (st : State) (guard : String) (last : Bool) : Option Ending :=
  (st.guards.find guard).map fun i => ⟨i, last⟩

/-- The write section that ends by a step. Whoever is granted a guard under a name that is in use gives
    up the guard that had the name. -/
def ending? (st : State) (op : Op) : Option Ending :=
  match op, (st.step op).2 with
  | .release _ guard, .done => st.endingOf guard false
  | .retire _ guard, .done => st.endingOf guard true
  | .upgrade _ guard _, .guard _ | .write _ guard, .guard _ => st.endingOf guard false
  | _, _ => none

end State

/-- The write sections that end in a script. -/
def endings : State → List Op → List Ending
  | _, [] => []
  | st, op :: ops => (st.ending? op).toList ++ endings (st.step op).1 ops

section Counting

variable {ends : List Ending} {i j : Nat} {last : Bool}

theorem sections_append_self : sections (ends ++ [⟨i, last⟩]) i = sections ends i + 1 := by
  simp [sections]

theorem sections_append_of_ne (h : j ≠ i) :
    sections (ends ++ [⟨j, last⟩]) i = sections ends i := by
  simp [sections, h]

theorem isRetired_append_self :
    isRetired (ends ++ [⟨i, last⟩]) i = (isRetired ends i || last) := by
  simp [isRetired]

theorem isRetired_append_of_ne (h : j ≠ i) :
    isRetired (ends ++ [⟨j, last⟩]) i = isRetired ends i := by
  simp [isRetired, h]

end Counting

/-! ### Locks that count -/

namespace State

/-- The state of a script in which these write sections have ended. -/
structure Counts (st : State) (ends : List Ending) : Prop where
  names : (st.guards.map Prod.fst).Nodup
  /-- Every guard is on a lock that there is. -/
  placed : ∀ name i, st.guards.find name = some i → i < st.locks.length
  /-- Every snapshot was taken while nobody held the lock. -/
  taken : ∀ name s, st.snapshots.find name = some s → s.word.toNat % 4 < 2
  /-- There is one guard at most, and none on a lock whose last section has ended. -/
  exclusive : ∀ i, st.live i + (isRetired ends i).toNat ≤ 1
  word : ∀ i l, st.locks[i]? = some l →
    l.word.toNat = (4 * sections ends i + 2 * st.live i + (isRetired ends i).toNat) % 2 ^ 64

variable {st : State} {ends : List Ending} {i j : Nat} {name : String} {l : VersionLock}

theorem counts_start (n : Nat) : (start n).Counts [] := by
  refine ⟨List.nodup_nil, ?_, ?_, fun i => Nat.zero_le 1, ?_⟩
  · intro name i h
    cases h
  · intro name s h
    cases h
  · intro i l hl
    have hfresh : l = .fresh := List.eq_of_mem_replicate (List.mem_of_getElem? hl)
    rw [hfresh]
    rfl

/-- A guard that has a name is live. -/
theorem live_pos (h : (st.guards.map Prod.fst).Nodup) (hfind : st.guards.find name = some j) :
    0 < st.live j := by
  have hcount := Bindings.countP_unbind h hfind fun i => decide (i = j)
  unfold live
  rw [hcount]
  simp

/-- After the last section no guard is live. -/
theorem Counts.live_of_retired (h : st.Counts ends) (hretired : isRetired ends i = true) :
    st.live i = 0 := by
  have hexclusive := h.exclusive i
  rw [hretired, Bool.toNat_true] at hexclusive
  omega

/-- A lock is idle when it has neither a live guard nor seen its last section. -/
theorem Counts.idle_iff (h : st.Counts ends) (hl : st.locks[i]? = some l) :
    l.Idle ↔ st.live i = 0 ∧ isRetired ends i = false := by
  have hword := h.word i l hl
  have hexclusive := h.exclusive i
  show l.word.toNat % 4 = 0 ↔ _
  rw [hword]
  cases hretired : isRetired ends i with
  | false =>
    rw [hretired] at hexclusive
    simp only [Bool.toNat_false, and_true] at hexclusive ⊢
    omega
  | true =>
    simp only [Bool.toNat_true, Bool.true_eq_false, and_false, iff_false]
    omega

/-- The end of a write section is counted. -/
theorem Counts.finish (h : st.Counts ends) (hfind : st.guards.find name = some j) (last : Bool) :
    (st.finish name (VersionLock.close last)).Counts (ends ++ [⟨j, last⟩]) := by
  have hcount := Bindings.countP_unbind h.names hfind
  have hpos := live_pos h.names hfind
  have hst : st.finish name (VersionLock.close last) =
      { st with locks := st.locks.modify j (VersionLock.close last)
                guards := st.guards.unbind name } := by
    simp [State.finish, hfind]
  rw [hst]
  have hlive : ∀ i, st.live i = State.live ⟨st.locks.modify j (VersionLock.close last),
      st.snapshots, st.guards.unbind name⟩ i + (decide (j = i)).toNat := fun i =>
    hcount fun k => decide (k = i)
  have hexclusive := h.exclusive j
  have hretired : isRetired ends j = false := by
    cases hretired : isRetired ends j with
    | false => rfl
    | true =>
      rw [hretired, Bool.toNat_true] at hexclusive
      omega
  refine ⟨Bindings.nodup_unbind h.names, ?_, h.taken, ?_, ?_⟩
  · intro other i hother
    have hold : st.guards.find other = some i := by
      by_cases hname : other = name
      · rw [hname, Bindings.find_unbind_self] at hother
        cases hother
      · rwa [Bindings.find_unbind_of_ne _ hname] at hother
    rw [List.length_modify]
    exact h.placed other i hold
  · intro i
    have hone := hlive i
    by_cases hj : j = i
    · subst hj
      rw [decide_eq_true rfl, Bool.toNat_true] at hone
      rw [isRetired_append_self, hretired, Bool.false_or]
      have hlast := Bool.toNat_le last
      omega
    · rw [decide_eq_false hj, Bool.toNat_false, Nat.add_zero] at hone
      rw [isRetired_append_of_ne hj, ← hone]
      exact h.exclusive i
  · intro i l hl
    have hone := hlive i
    rw [List.getElem?_modify] at hl
    obtain ⟨k, hk, rfl⟩ := Option.map_eq_some_iff.1 hl
    have hword := h.word i k hk
    by_cases hj : j = i
    · subst hj
      rw [decide_eq_true rfl, Bool.toNat_true] at hone
      rw [if_pos rfl, VersionLock.toNat_close, sections_append_self, isRetired_append_self, hword,
        hretired, Bool.false_or, Bool.toNat_false]
      omega
    · rw [decide_eq_false hj, Bool.toNat_false, Nat.add_zero] at hone
      rw [if_neg hj, sections_append_of_ne hj, isRetired_append_of_ne hj, ← hone]
      exact hword

/-- A guard under a new name on an idle lock is counted. -/
theorem Counts.bind (h : st.Counts ends) (hfree : st.guards.find name = none)
    (hl : st.locks[i]? = some l) (hidle : l.Idle) :
    State.Counts { st with locks := st.locks.set i ⟨l.word + 2⟩
                           guards := st.guards.bind name i } ends := by
  obtain ⟨hnone, hlinked⟩ := (h.idle_iff hl).1 hidle
  have hlt : i < st.locks.length := (List.getElem?_eq_some_iff.1 hl).1
  have hguards : st.guards.bind name i = (name, i) :: st.guards := by
    rw [Bindings.bind, Bindings.unbind_of_find_none hfree]
  have hlive : ∀ k, State.live ⟨st.locks.set i ⟨l.word + 2⟩, st.snapshots, st.guards.bind name i⟩ k =
      st.live k + (decide (i = k)).toNat := by
    intro k
    unfold live
    rw [hguards, List.countP_cons]
    by_cases hk : i = k <;> simp [hk]
  refine ⟨Bindings.nodup_bind h.names i, ?_, h.taken, ?_, ?_⟩
  · intro other k hother
    rw [List.length_set]
    by_cases hname : other = name
    · rw [hname, Bindings.find_bind_self] at hother
      obtain rfl := Option.some_inj.1 hother
      exact hlt
    · rw [Bindings.find_bind_of_ne _ _ hname] at hother
      exact h.placed other k hother
  · intro k
    rw [hlive]
    by_cases hk : i = k
    · subst hk
      rw [hnone, hlinked]
      simp
    · rw [decide_eq_false hk]
      exact h.exclusive k
  · intro k m hm
    rw [hlive]
    by_cases hk : i = k
    · subst hk
      rw [List.getElem?_set_self hlt] at hm
      obtain rfl := Option.some_inj.1 hm
      have hword := h.word i l hl
      rw [hnone, hlinked] at hword
      rw [hnone, hlinked, decide_eq_true rfl]
      have hsum : (l.word + 2).toNat = (l.word.toNat + 2) % 2 ^ 64 := UInt64.toNat_add l.word 2
      show (l.word + 2).toNat = _
      rw [hsum, hword]
      simp only [Bool.toNat_false, Bool.toNat_true]
      omega
    · rw [List.getElem?_set_ne hk] at hm
      rw [decide_eq_false hk]
      exact h.word k m hm

/-- A guard that is granted on an idle lock is counted, and so is the end of the section of the guard
    that it takes the name from. -/
theorem Counts.grant (h : st.Counts ends) (hl : st.locks[i]? = some l) (hidle : l.Idle)
    (name : String) :
    (st.grant i name ⟨l.word + 2⟩).Counts (ends ++ (st.endingOf name false).toList) := by
  unfold State.grant endingOf
  dsimp only
  cases hfind : st.guards.find name with
  | none =>
    have hsame : st.finish name VersionLock.release = st := by simp [State.finish, hfind]
    rw [hsame]
    simpa using h.bind hfind hl hidle
  | some j =>
    have hpos := live_pos h.names hfind
    have hne : j ≠ i := by
      rintro rfl
      have hnone := ((h.idle_iff hl).1 hidle).1
      omega
    have hfinish := h.finish hfind false
    have hrelease : VersionLock.close false = VersionLock.release := rfl
    rw [hrelease] at hfinish
    have hfree : (st.finish name VersionLock.release).guards.find name = none := by
      simp [State.finish, hfind, Bindings.find_unbind_self]
    have hsame : (st.finish name VersionLock.release).locks[i]? = some l := by
      simp [State.finish, hfind, hne, hl]
    exact hfinish.bind hfree hsame hidle

/-- A snapshot that is kept was taken while nobody held the lock. -/
theorem Counts.snapshot (h : st.Counts ends) {s : Snapshot} (hs : s.word.toNat % 4 < 2)
    (name : String) :
    State.Counts { st with snapshots := st.snapshots.bind name s } ends := by
  refine ⟨h.names, h.placed, ?_, h.exclusive, h.word⟩
  intro other r hother
  by_cases hname : other = name
  · rw [hname, Bindings.find_bind_self] at hother
    obtain rfl := Option.some_inj.1 hother
    exact hs
  · rw [Bindings.find_bind_of_ne _ _ hname] at hother
    exact h.taken other r hother

/-! ### Steps -/

/-- Exclusive access to `l` is granted, on request or for a snapshot that was kept. -/
def Grants (st : State) (l held : VersionLock) : Prop :=
  l.acquire = .ok held ∨ ∃ name s, st.snapshots.find name = some s ∧ l.upgrade s = .ok held

/-- Everything that a step on lock `i` can come to: the state and the answer, and the write section
    that ends. -/
inductive Yields (st : State) (i : Nat) : State × Answer → Option Ending → Prop
  /-- Something is looked at or refused. -/
  | look {answer : Answer} : (∀ s, answer ≠ .snapshot s) → (∀ held, answer ≠ .guard held) →
      Yields st i (st, answer) none
  | snapshot {l : VersionLock} {s : Snapshot} (name : String) : st.locks[i]? = some l →
      l.snapshot = .ok s →
      Yields st i ({ st with snapshots := st.snapshots.bind name s }, .snapshot s) none
  | grant {l held : VersionLock} (guard : String) : st.locks[i]? = some l → st.Grants l held →
      Yields st i (st.grant i guard held, .guard held) (st.endingOf guard false)
  | finish {guard : String} {j : Nat} (last : Bool) : st.guards.find guard = some j →
      Yields st i (st.finish guard (VersionLock.close last), .done) (some ⟨j, last⟩)

theorem yields_unknownName (st : State) (i : Nat) : st.Yields i (st, .unknownName) none :=
  .look (fun _ => Answer.noConfusion) fun _ => Answer.noConfusion

theorem yields_refusal (st : State) (i : Nat) (e : Fault) : st.Yields i (st, refusal e) none := by
  refine .look (fun s => ?_) fun held => ?_
  · cases e <;> exact Answer.noConfusion
  · cases e <;> exact Answer.noConfusion

theorem yields_stepOn {op : Op} (hl : st.locks[op.lock]? = some l) :
    st.Yields op.lock (st.stepOn l op) (st.ending? op) := by
  have hstep : st.step op = st.stepOn l op := by
    unfold State.step
    rw [hl]
  unfold ending?
  rw [hstep]
  cases op with
  | read i name =>
    unfold State.stepOn
    dsimp only
    cases hs : l.snapshot with
    | ok s => exact .snapshot name hl hs
    | error e => exact yields_refusal st i e
  | readLive i name =>
    unfold State.stepOn
    dsimp only
    cases hs : l.liveSnapshot with
    | ok s => exact .snapshot name hl (VersionLock.snapshot_of_liveSnapshot hs)
    | error e => exact yields_refusal st i e
  | validate i name =>
    unfold State.stepOn
    dsimp only
    cases hs : st.snapshots.find name with
    | none => exact yields_unknownName st i
    | some s =>
      dsimp only
      cases l.validate s with
      | ok u => exact .look (fun _ => Answer.noConfusion) fun _ => Answer.noConfusion
      | error e => exact yields_refusal st i e
  | upgrade i guard name =>
    unfold State.stepOn
    dsimp only
    cases hs : st.snapshots.find name with
    | none => exact yields_unknownName st i
    | some s =>
      dsimp only
      cases hheld : l.upgrade s with
      | ok held => exact .grant guard hl (Or.inr ⟨name, s, hs, hheld⟩)
      | error e =>
        dsimp only
        cases e <;> exact yields_refusal st i _
  | write i guard =>
    unfold State.stepOn
    dsimp only
    cases hheld : l.acquire with
    | ok held => exact .grant guard hl (Or.inl hheld)
    | error e =>
      dsimp only
      cases e <;> exact yields_refusal st i _
  | release i guard =>
    unfold State.stepOn endingOf
    dsimp only
    cases hfind : st.guards.find guard with
    | none => exact yields_unknownName st i
    | some j =>
      dsimp only
      rw [hfind]
      exact .finish false hfind
  | retire i guard =>
    unfold State.stepOn endingOf
    dsimp only
    cases hfind : st.guards.find guard with
    | none => exact yields_unknownName st i
    | some j =>
      dsimp only
      rw [hfind]
      exact .finish true hfind
  | same i a b | inspect i => exact .look (fun _ => Answer.noConfusion) fun _ => Answer.noConfusion

theorem yields_step (st : State) (op : Op) : st.Yields op.lock (st.step op) (st.ending? op) := by
  cases hl : st.locks[op.lock]? with
  | none =>
    have hstep : st.step op = (st, .unknownName) := by
      unfold State.step
      rw [hl]
    have hending : st.ending? op = none := by
      unfold ending?
      rw [hstep]
      cases op <;> rfl
    rw [hstep, hending]
    exact yields_unknownName st op.lock
  | some l =>
    have hstep : st.step op = st.stepOn l op := by
      unfold State.step
      rw [hl]
    rw [hstep]
    exact yields_stepOn hl

/-- Exclusive access is granted on an idle lock only. -/
theorem Counts.idle_of_grants (h : st.Counts ends) {held : VersionLock} (hheld : st.Grants l held) :
    l.Idle ∧ held = ⟨l.word + 2⟩ := by
  rcases hheld with hheld | ⟨name, s, hs, hheld⟩
  · exact VersionLock.idle_of_acquire hheld
  · exact VersionLock.idle_of_upgrade (h.taken name s hs) hheld

theorem Counts.step (h : st.Counts ends) (op : Op) :
    (st.step op).1.Counts (ends ++ (st.ending? op).toList) := by
  have hyields := yields_step st op
  generalize st.step op = after, st.ending? op = ending at hyields
  cases hyields with
  | look _ _ => simpa using h
  | snapshot name _ hs => simpa using h.snapshot (VersionLock.snapshot_mod_four hs) name
  | grant guard hl hheld =>
    obtain ⟨hidle, rfl⟩ := h.idle_of_grants hheld
    exact h.grant hl hidle guard
  | finish last hfind => exact h.finish hfind last

/-! ### Locks of which the last section has ended -/

/-- Once the last section has ended on a lock, no step grants a guard there, and none ends a section
    there. -/
theorem Counts.step_of_retired (h : st.Counts ends) (hretired : isRetired ends i = true) (op : Op) :
    (op.lock = i → ∀ held, (st.step op).2 ≠ .guard held) ∧
      ∀ e ∈ st.ending? op, e.lock ≠ i := by
  have hnone : ∀ guard, st.guards.find guard ≠ some i := fun guard hfind =>
    (live_pos h.names hfind).ne' (h.live_of_retired hretired)
  have hyields := yields_step st op
  generalize st.step op = after, st.ending? op = ending at hyields
  cases hyields with
  | look _ hanswer => exact ⟨fun _ => hanswer, fun e he => nomatch he⟩
  | snapshot name _ _ => exact ⟨fun _ held => Answer.noConfusion, fun e he => nomatch he⟩
  | grant guard hl hheld =>
    refine ⟨?_, ?_⟩
    · intro hi
      have hlinked := ((h.idle_iff hl).1 (h.idle_of_grants hheld).1).2
      rw [hi, hretired] at hlinked
      cases hlinked
    · intro e he hi
      obtain ⟨j, hj, rfl⟩ := Option.map_eq_some_iff.1 he
      exact hnone guard (hi ▸ hj)
  | @finish guard j last hfind =>
    refine ⟨fun _ held => Answer.noConfusion, ?_⟩
    intro e he hi
    obtain rfl := Option.some_inj.1 he
    exact hnone guard (hi ▸ hfind)

end State

/-! ### Scripts -/

variable {st : State} {ends : List Ending} {i : Nat}

theorem counts_exec (h : st.Counts ends) (ops : List Op) :
    (exec st ops).Counts (ends ++ endings st ops) := by
  induction ops generalizing st ends with
  | nil =>
    rw [endings, List.append_nil]
    exact h
  | cons op ops ih =>
    have hrest := ih (h.step op)
    rwa [List.append_assoc] at hrest

theorem State.length_finish (st : State) (guard : String) (ending : VersionLock → VersionLock) :
    (st.finish guard ending).locks.length = st.locks.length := by
  unfold State.finish
  split
  · rfl
  · exact List.length_modify ..

theorem State.length_grant (st : State) (i : Nat) (guard : String) (held : VersionLock) :
    (st.grant i guard held).locks.length = st.locks.length :=
  List.length_set.trans (st.length_finish guard .release)

theorem State.length_step (st : State) (op : Op) : (st.step op).1.locks.length = st.locks.length := by
  have hyields := yields_step st op
  generalize st.step op = after, st.ending? op = ending at hyields
  cases hyields with
  | look _ _ => rfl
  | snapshot name _ _ => rfl
  | grant guard _ _ => exact st.length_grant ..
  | finish last _ => exact st.length_finish ..

theorem length_exec (st : State) (ops : List Op) : (exec st ops).locks.length = st.locks.length := by
  induction ops generalizing st with
  | nil => rfl
  | cons op ops ih => exact (ih (st.step op).1).trans (st.length_step op)

/-- From the end of its last section on a lock is granted to nobody, and no further section ends
    there. -/
theorem sections_exec_of_retired (h : st.Counts ends) (hretired : isRetired ends i = true)
    (ops : List Op) :
    sections (ends ++ endings st ops) i = sections ends i ∧
      isRetired (ends ++ endings st ops) i = true := by
  induction ops generalizing st ends with
  | nil => simpa [endings] using hretired
  | cons op ops ih =>
    obtain ⟨-, hother⟩ := h.step_of_retired hretired op
    have hone : sections (ends ++ (st.ending? op).toList) i = sections ends i ∧
        isRetired (ends ++ (st.ending? op).toList) i = true := by
      cases he : st.ending? op with
      | none => simpa using hretired
      | some e =>
        have hne := hother e he
        exact ⟨sections_append_of_ne hne, (isRetired_append_of_ne hne).trans hretired⟩
    have hrest := ih (h.step op) hone.2
    rw [List.append_assoc, hone.1] at hrest
    exact hrest

/-- Over every script on `n` locks, which may try any snapshot on any lock: the word of a lock is four
    times the number of sections ended there, two more while a guard is live, and one more once a
    section was the last, all of it modulo `2 ^ 64`; there is one live guard at most; and after the
    last section the word stays what it is and no guard is granted there any more. -/
theorem exec_locks_account (n : Nat) (ops : List Op) :
    let st := exec (start n) ops
    let ends := endings (start n) ops
    (∀ i < n, ∃ l, st.locks[i]? = some l ∧
      l.word.toNat = (4 * sections ends i + 2 * st.live i + (isRetired ends i).toNat) % 2 ^ 64) ∧
    (∀ i, st.live i ≤ 1) ∧
    ∀ i, isRetired ends i = true → ∀ more op,
      let later := exec st more
      later.locks[i]? = st.locks[i]? ∧ later.live i = 0 ∧
        (op.lock = i → ∀ held, (later.step op).2 ≠ .guard held) := by
  intro st ends
  have hcounts : st.Counts ends := counts_exec (State.counts_start n) ops
  have hlength : st.locks.length = n := (length_exec _ ops).trans List.length_replicate
  have hlocks : ∀ i < n, ∃ l, st.locks[i]? = some l := fun i hi =>
    ⟨_, List.getElem?_eq_getElem (hlength.symm ▸ hi)⟩
  refine ⟨?_, ?_, ?_⟩
  · intro i hi
    obtain ⟨l, hl⟩ := hlocks i hi
    exact ⟨l, hl, hcounts.word i l hl⟩
  · intro i
    have hexclusive := hcounts.exclusive i
    omega
  · intro i hretired more op later
    have hlater : later.Counts _ := counts_exec hcounts more
    obtain ⟨hsections, hstill⟩ := sections_exec_of_retired hcounts hretired more
    have hnone := hcounts.live_of_retired hretired
    have hnone' := hlater.live_of_retired hstill
    refine ⟨?_, hnone', (hlater.step_of_retired hstill op).1⟩
    cases hl : st.locks[i]? with
    | none =>
      rw [List.getElem?_eq_none_iff] at hl ⊢
      exact (length_exec st more).trans_le hl
    | some l =>
      have hlt := (List.getElem?_eq_some_iff.1 hl).1
      have hl' := List.getElem?_eq_getElem ((length_exec st more).symm ▸ hlt)
      have hword := hcounts.word i l hl
      have hword' := hlater.word i _ hl'
      rw [hsections, hstill, hnone'] at hword'
      rw [hretired, hnone, ← hword'] at hword
      rw [hl']
      exact congrArg some (congrArg VersionLock.mk (UInt64.toNat_inj.1 hword.symm))

/-- A snapshot of one lock gives exclusive access to the other; after the last section there it gives
    none, and neither does asking for it. -/
example :
    let ops := [.read 0 "v", .upgrade 1 "g" "v", .retire 1 "g", .upgrade 1 "g" "v", .write 1 "g"]
    (run (start 2) ops).map Prod.fst =
      [.snapshot ⟨0⟩, .guard ⟨2⟩, .done, .restart, .restart] ∧
    (exec (start 2) ops).locks = [⟨0⟩, ⟨5⟩] ∧
    endings (start 2) ops = [⟨1, true⟩] := by
  decide

end LockScript

end RadixStore
