import Mathlib
import RadixStore.Proofs.Lock.Run

/-!
# Snapshots notice every write section

A write section begins with the guard that is granted for it, and ends when that is given up. So on
each lock the sections that have begun are those that have ended and the one that a live guard stands
for. As the word of the lock tells both apart, it is the word of an earlier snapshot again only if no
section has begun since then, as long as the counter does not wrap around.
-/

namespace RadixStore

namespace VersionLock

variable {l : VersionLock} {v : Snapshot}

theorem validate_eq_ok_iff : l.validate v = .ok () ↔ l.word = v.word := by
  unfold validate
  split <;> simp_all

/-- Exclusive access is granted to a valid snapshot of a linked node, and to no other. -/
theorem exists_upgrade_iff :
    (∃ held, l.upgrade v = .ok held) ↔ l.word = v.word ∧ v.isObsolete = false := by
  unfold upgrade
  cases v.isObsolete with
  | true => simp
  | false =>
    simp only [Bool.false_eq_true, if_false, and_true]
    split <;> simp_all

/-- An obsolete lock has another word than any snapshot of a linked node. -/
theorem word_ne_of_obsolete (h : l.isObsolete = true) (hv : v.isObsolete = false) :
    l.word ≠ v.word := by
  unfold isObsolete at h
  unfold Snapshot.isObsolete at hv
  intro hword
  rw [hword, hv] at h
  cases h

/-- No write section begins on an obsolete lock. -/
theorem not_upgrade_of_obsolete (h : l.isObsolete = true) (v : Snapshot) :
    ¬ ∃ held, l.upgrade v = .ok held := by
  rw [exists_upgrade_iff]
  exact fun ⟨hword, hv⟩ => word_ne_of_obsolete h hv hword

theorem word_of_snapshot (h : l.snapshot = .ok v) : v.word = l.word := by
  unfold snapshot at h
  split at h
  · cases h
  · rw [← Except.ok.inj h]

end VersionLock

/-- The counter of a snapshot is that of its word. -/
theorem Snapshot.toNat_counter (v : Snapshot) : v.counter.toNat = v.word.toNat / 4 :=
  VersionLock.counter_eq ⟨v.word⟩

namespace LockScript

variable {ends more : List Ending} {i j k : Nat} {last : Bool}

/-! ### Sections that begin -/

/-- The lock on which a write section begins by a step. -/
def State.beginning? (st : State) (op : Op) : Option Nat :=
  match (st.step op).2 with
  | .guard _ => some op.lock
  | _ => none

/-- The locks on which write sections begin in a script. -/
def beginnings : State → List Op → List Nat
  | _, [] => []
  | st, op :: ops => (st.beginning? op).toList ++ beginnings (st.step op).1 ops

theorem beginnings_append (st : State) (ops more : List Op) :
    beginnings st (ops ++ more) = beginnings st ops ++ beginnings (exec st ops) more := by
  induction ops generalizing st with
  | nil => rfl
  | cons op ops ih =>
    rw [List.cons_append, beginnings, beginnings, ih, List.append_assoc]
    rfl

/-! ### Sections that end -/

theorem sections_append (ends more : List Ending) (i : Nat) :
    sections (ends ++ more) i = sections ends i + sections more i :=
  List.countP_append

/-- Where no section has ended in the meantime none was the last. -/
theorem isRetired_append_of_sections (h : sections more i = 0) :
    isRetired (ends ++ more) i = isRetired ends i := by
  have hnone : isRetired more i = false := by
    unfold isRetired
    rw [List.any_eq_false]
    intro e he hlast
    obtain rfl := of_decide_eq_true hlast
    exact List.countP_eq_zero.1 h _ he (decide_eq_true rfl)
  unfold isRetired at hnone ⊢
  rw [List.any_append, hnone, Bool.or_false]

namespace State

variable {st : State} {name : String} {l : VersionLock} {v : Snapshot}

/-- The guards that are live are the one called `name`, if there is one, and the others. -/
theorem live_eq_unbind (h : (st.guards.map Prod.fst).Nodup) (name : String) (last : Bool) (k : Nat) :
    st.live k = (st.guards.unbind name).countP (fun g => decide (g.2 = k)) +
      sections (st.endingOf name last).toList k := by
  unfold live endingOf
  cases hfind : st.guards.find name with
  | none =>
    rw [Bindings.unbind_of_find_none hfind]
    rfl
  | some j =>
    rw [Bindings.countP_unbind h hfind fun i => decide (i = k)]
    by_cases hj : j = k <;> simp [sections, hj]

/-- A guard that is given up is live no longer. -/
theorem live_finish (h : (st.guards.map Prod.fst).Nodup) (hfind : st.guards.find name = some j)
    (last : Bool) (ending : VersionLock → VersionLock) (k : Nat) :
    st.live k = (st.finish name ending).live k + sections [⟨j, last⟩] k := by
  have hlive := live_eq_unbind h name last k
  have hending : st.endingOf name last = some ⟨j, last⟩ := by rw [endingOf, hfind, Option.map_some]
  rw [hending] at hlive
  rw [hlive]
  unfold State.finish live
  rw [hfind]
  rfl

/-- A guard that is granted is live, and the one that had its name is no longer. -/
theorem live_grant (h : (st.guards.map Prod.fst).Nodup) (i : Nat) (name : String)
    (held : VersionLock) (k : Nat) :
    [i].count k + st.live k =
      sections (st.endingOf name false).toList k + (st.grant i name held).live k := by
  have hguards : (st.grant i name held).guards = (name, i) :: st.guards.unbind name := by
    unfold State.grant State.finish
    cases hfind : st.guards.find name with
    | none => rfl
    | some j =>
      show (name, i) :: (st.guards.unbind name).unbind name = _
      rw [Bindings.unbind_unbind]
  have hlive := live_eq_unbind h name false k
  have hgrant : (st.grant i name held).live k =
      (st.guards.unbind name).countP (fun g => decide (g.2 = k)) + [i].count k := by
    unfold live
    rw [hguards, List.countP_cons]
    by_cases hi : i = k <;> simp [hi]
  omega

/-! ### Sections that have begun -/

/-- In every step the sections that begin are accounted for. -/
theorem Counts.begin_step (h : st.Counts ends) (op : Op) (k : Nat) :
    (st.beginning? op).toList.count k + st.live k =
      sections (st.ending? op).toList k + (st.step op).1.live k := by
  unfold beginning?
  have hyields := yields_step st op
  generalize st.step op = after, st.ending? op = ending at hyields
  cases hyields with
  | @look answer _ hanswer =>
    cases answer with
    | guard held => exact absurd rfl (hanswer held)
    | _ => rfl
  | snapshot name _ _ => rfl
  | grant guard _ _ => exact live_grant h.names op.lock guard _ k
  | finish last hfind =>
    have hlive := live_finish h.names hfind last (VersionLock.close last) k
    simpa [Nat.add_comm] using hlive

/-- In every script the sections that have begun are those that have ended and those that last. -/
theorem Counts.begin_exec (h : st.Counts ends) (ops : List Op) (k : Nat) :
    (beginnings st ops).count k + st.live k =
      sections (endings st ops) k + (exec st ops).live k := by
  induction ops generalizing st ends with
  | nil => exact rfl
  | cons op ops ih =>
    have hstep := h.begin_step op k
    have hrest : (beginnings (st.step op).1 ops).count k + (st.step op).1.live k =
        sections (endings (st.step op).1 ops) k + (exec st (op :: ops)).live k := ih (h.step op)
    rw [beginnings, endings, List.count_append, sections_append]
    omega

/-! ### Snapshots -/

/-- A snapshot is the word of the lock, and to take it changes neither locks nor guards. -/
theorem snapshot_of_step {op : Op} (h : (st.step op).2 = .snapshot v) :
    ∃ l, st.locks[op.lock]? = some l ∧ l.snapshot = .ok v ∧
      (st.step op).1.locks = st.locks ∧ (st.step op).1.guards = st.guards := by
  have hyields := yields_step st op
  generalize st.step op = after, st.ending? op = ending at hyields h
  cases hyields with
  | look hanswer _ => exact absurd h (hanswer v)
  | @snapshot l s name hl hs =>
    obtain rfl := Answer.snapshot.inj h
    exact ⟨l, hl, hs, rfl, rfl⟩
  | grant guard _ _ => cases h
  | finish last _ => cases h

/-- A snapshot is taken while no guard is live. -/
theorem Counts.live_of_snapshot (h : st.Counts ends) (hl : st.locks[i]? = some l)
    (hs : l.snapshot = .ok v) : st.live i = 0 := by
  have hword := h.word i l hl
  have hexclusive := h.exclusive i
  have hfree := VersionLock.snapshot_mod_four hs
  rw [VersionLock.word_of_snapshot hs] at hfree
  omega

/-- The word of a lock is that of an earlier snapshot if no section has begun since, and only then;
    and it never falls below. -/
theorem Counts.word_eq_iff (h : st.Counts ends) (hfree : st.live i = 0) {ops : List Op}
    {l' : VersionLock} (hl : st.locks[i]? = some l) (hl' : (exec st ops).locks[i]? = some l')
    (hfew : sections ends i + (beginnings st ops).count i < 2 ^ 62) :
    (l'.word = l.word ↔ i ∉ beginnings st ops) ∧ l.word.toNat ≤ l'.word.toNat := by
  have hlater := counts_exec h ops
  have hword := h.word i l hl
  have hword' := hlater.word i l' hl'
  have hexclusive := h.exclusive i
  have hexclusive' := hlater.exclusive i
  have hbegun := h.begin_exec ops i
  rw [sections_append] at hword'
  rw [← UInt64.toNat_inj, ← List.count_eq_zero]
  by_cases hnone : sections (endings st ops) i = 0
  · have hretired : isRetired (ends ++ endings st ops) i = isRetired ends i :=
      isRetired_append_of_sections hnone
    rw [hretired] at hword' hexclusive'
    refine ⟨⟨?_, ?_⟩, ?_⟩ <;> omega
  · refine ⟨⟨?_, ?_⟩, ?_⟩ <;> omega

end State

/-! ### Scripts -/

/-- If no guard is live after a step, then the sections that begin in the whole script are those that
    have ended by then and those that begin later. -/
theorem count_beginnings_of_idle (n : Nat) (ops : List Op) (op : Op) (more : List Op) {i : Nat}
    (hidle : ((exec (start n) ops).step op).1.live i = 0) :
    (beginnings (start n) (ops ++ op :: more)).count i =
      sections (endings (start n) ops ++ ((exec (start n) ops).ending? op).toList) i +
        (beginnings ((exec (start n) ops).step op).1 more).count i := by
  have hstart : (start n).Counts [] := State.counts_start n
  have hbefore : (exec (start n) ops).Counts (endings (start n) ops) := counts_exec hstart ops
  have hbegun := hstart.begin_exec ops i
  have hstep := hbefore.begin_step op i
  have hlive : (start n).live i = 0 := rfl
  rw [beginnings_append, beginnings, List.count_append, List.count_append, sections_append]
  omega

/-- Over every script on any number of locks, with fewer than `2 ^ 62` write sections on the lock of
    which a snapshot is taken: later on the snapshot is valid there if no section has begun in the
    meantime, whether it has ended or not, and only then; it gives exclusive access if moreover the
    node was linked; and another snapshot taken there is the same under the same condition, with a
    counter that is no lower. -/
theorem snapshot_tells_sections (n : Nat) (ops : List Op) (take : Op) (v : Snapshot) (more : List Op)
    (htake : ((exec (start n) ops).step take).2 = .snapshot v)
    (hfew : (beginnings (start n) (ops ++ take :: more)).count take.lock < 2 ^ 62) :
    let taken := ((exec (start n) ops).step take).1
    let later := exec taken more
    (∃ l, later.locks[take.lock]? = some l ∧
      (l.validate v = .ok () ↔ take.lock ∉ beginnings taken more) ∧
      ((∃ held, l.upgrade v = .ok held) ↔
        take.lock ∉ beginnings taken more ∧ v.isObsolete = false)) ∧
    ∀ again w, again.lock = take.lock → (later.step again).2 = .snapshot w →
      (v = w ↔ take.lock ∉ beginnings taken more) ∧ v.counter ≤ w.counter := by
  intro taken later
  have hstart : (start n).Counts [] := State.counts_start n
  have hbefore : (exec (start n) ops).Counts (endings (start n) ops) := counts_exec hstart ops
  obtain ⟨l, hl, hs, hlocks, hguards⟩ := State.snapshot_of_step htake
  have hcounts : taken.Counts _ := hbefore.step take
  have hword := VersionLock.word_of_snapshot hs
  have hltaken : taken.locks[take.lock]? = some l := hlocks ▸ hl
  have hfree : taken.live take.lock = 0 := by
    have hnone := hbefore.live_of_snapshot hl hs
    unfold State.live at hnone ⊢
    rw [hguards]
    exact hnone
  have hsections := count_beginnings_of_idle n ops take more hfree
  have hlength : later.locks.length = taken.locks.length := length_exec taken more
  have hlt : take.lock < later.locks.length :=
    hlength ▸ (List.getElem?_eq_some_iff.1 hltaken).1
  have hlater : later.locks[take.lock]? = some later.locks[take.lock] :=
    List.getElem?_eq_getElem hlt
  obtain ⟨hsame, hle⟩ := hcounts.word_eq_iff hfree hltaken hlater (hsections ▸ hfew)
  refine ⟨⟨_, hlater, ?_, ?_⟩, ?_⟩
  · rw [VersionLock.validate_eq_ok_iff, hword, hsame]
  · rw [VersionLock.exists_upgrade_iff, hword, hsame]
  · intro again w hagain hw
    obtain ⟨l', hl', hs', -, -⟩ := State.snapshot_of_step hw
    rw [hagain, hlater] at hl'
    obtain rfl := Option.some_inj.1 hl'
    have hword' := VersionLock.word_of_snapshot hs'
    constructor
    · rw [← hsame, ← hword, ← hword', eq_comm (a := w.word)]
      constructor
      · rintro rfl
        rfl
      · intro heq
        cases v
        cases w
        exact congrArg Snapshot.mk heq
    · rw [UInt64.le_iff_toNat_le, Snapshot.toNat_counter, Snapshot.toNat_counter, hword, hword']
      exact Nat.div_le_div_right hle

/-- While one snapshot is kept, it gives exclusive access to another lock, and its own lock sees its
    last section. -/
theorem snapshot_tells_last_section :
    let taken := ((exec (start 2) []).step (.read 0 "v")).1
    let later := exec taken [.upgrade 1 "g" "v", .write 0 "g", .retire 0 "g"]
    (∃ l, later.locks[0]? = some l ∧ l.validate ⟨0⟩ ≠ .ok () ∧ ∀ held, l.upgrade ⟨0⟩ ≠ .ok held) ∧
      Snapshot.mk 0 ≠ ⟨5⟩ ∧ (Snapshot.mk 0).counter ≤ (Snapshot.mk 5).counter := by
  intro taken later
  have hbegun : ¬ 0 ∉ beginnings taken [.upgrade 1 "g" "v", .write 0 "g", .retire 0 "g"] := by
    decide
  obtain ⟨⟨l, hl, hvalid, hupgrade⟩, hagain⟩ := snapshot_tells_sections 2 [] (.read 0 "v") ⟨0⟩
    [.upgrade 1 "g" "v", .write 0 "g", .retire 0 "g"] (by decide) (by decide)
  obtain ⟨hsame, hcounter⟩ := hagain (.read 0 "w") ⟨5⟩ rfl (by decide)
  refine ⟨⟨l, hl, fun hok => hbegun (hvalid.1 hok), ?_⟩, fun heq => hbegun (hsame.1 heq), hcounter⟩
  intro held hok
  exact hbegun (hupgrade.1 ⟨held, hok⟩).1

end LockScript

end RadixStore
