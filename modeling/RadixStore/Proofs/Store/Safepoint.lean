import Mathlib
import RadixStore.Proofs.Store.Collection
import RadixStore.Proofs.Store.Ledger

/-!
# The registry tells who is open

The registry of a store has exactly the timestamps of the transactions that a record of the run says to
be open there. Its oldest one and the watermark make up the safepoint, which therefore goes back only
if somebody is let in below the watermark.
-/

namespace RadixStore

variable {V : Type}

/-- The registry of the store stands for these timestamps, and so does the safepoint. -/
structure Store.Registers (s : Store V) (reading : Multiset Timestamp) : Prop where
  /-- Every timestamp has one entry at most, -/
  once : (s.active.counts.map Prod.fst).Nodup
  /-- which says how often it occurs, and none if it does not. -/
  entry : ∀ ts n, (ts, n) ∈ s.active.counts ↔ 0 < n ∧ reading.count ts = n
  count : s.active.count = reading.card
  oldest : ∀ ts, s.active.oldest? = some ts ↔ IsLeast {x | x ∈ reading} ts
  /-- The safepoint falls below the watermark and below all of them, but no further than it must. -/
  safepoint : IsGreatest {x | x ≤ s.watermark ∧ ∀ ts ∈ reading, x ≤ ts} s.safepoint

theorem Store.registers_members {s : Store V} (h : s.active.Ordered) :
    s.Registers s.active.members where
  once := h.nodup
  entry _ _ := h.mem_counts_iff
  count := s.active.count_eq_card
  oldest _ := h.oldest?_eq_some_iff
  safepoint := ⟨(Store.le_safepoint_iff h).1 le_rfl, fun _ hx => (Store.le_safepoint_iff h).2 hx⟩

namespace System

/-- In the run nobody is let in on store `i` below the watermark of that moment. -/
def honorsOn (i : Nat) : System V → List (Action V) → Bool
  | _, [] => true
  | sys, a :: actions =>
    (sys.target? a != some i || sys.honors a) && honorsOn i (sys.act a).1 actions

variable {sys : System V} {a : Action V} {L : Ledger} {i : Nat} {s s' : Store V}

theorem Sound.members_eq_readTimes (h : sys.Sound) (hL : L.Agrees sys)
    (hs : sys.stores[i]? = some s) : s.active.members = L.readTimes i := by
  rw [(h.stores i s hs).members_eq, hL.readTimes_eq h]

/-- By an action that lets nobody in below the watermark the safepoint does not go back. -/
theorem Sound.safepoint_le_act (h : sys.Sound) (hL : L.Agrees sys) (hs : sys.stores[i]? = some s)
    (hs' : (sys.act a).1.stores[i]? = some s')
    (hopen : ∀ name ts update, a = .openTxn i name ts update → s.watermark ≤ ts) :
    s.safepoint ≤ s'.safepoint := by
  have hsound := (h.act a).sound
  have hlater := hL.effect h (h.effect a)
  obtain ⟨hwatermark, hreaders⟩ := (Store.le_safepoint_iff (h.stores i s hs).ordered).1 le_rfl
  rw [h.members_eq_readTimes hL hs] at hreaders
  rw [Store.le_safepoint_iff (hsound.stores i s' hs').ordered, hsound.members_eq_readTimes hlater hs']
  constructor
  · have hages := (h.effect a).ages h i
    rw [hs, hs'] at hages
    cases hages with
    | some hage => exact hwatermark.trans hage.watermark_le
  · intro ts hts
    rcases Ledger.mem_readTimes_record hts with hold | ⟨name, update, ha⟩
    · exact hreaders ts hold
    · exact hwatermark.trans (hopen name ts update ha)

/-- Over a run in which nobody is let in below the watermark the safepoint does not go back. -/
theorem Sound.safepoint_le_exec (h : sys.Sound) (hL : L.Agrees sys) {run : List (Action V)}
    (hs : sys.stores[i]? = some s) (hs' : (sys.exec run).stores[i]? = some s')
    (hhonors : sys.honorsOn i run = true) : s.safepoint ≤ s'.safepoint := by
  induction run generalizing sys L s with
  | nil =>
    obtain rfl := Option.some_inj.1 (hs.symm.trans hs')
    exact le_rfl
  | cons a run ih =>
    obtain ⟨hfirst, hrest⟩ := Bool.and_eq_true_iff.1 hhonors
    have hages := (h.effect a).ages h i
    rw [hs] at hages
    generalize hmid : (sys.act a).1.stores[i]? = mid at hages
    cases hages with
    | @some _ r _ =>
      have hopen : ∀ name ts update, a = .openTxn i name ts update → s.watermark ≤ ts := by
        rintro name ts update rfl
        simpa [target?, honors, hs] using hfirst
      exact (h.safepoint_le_act hL hs hmid hopen).trans
        (ih (h.act a).sound (hL.effect h (h.effect a)) hmid hs' hrest)

/-- The registry is exact. After every run of new stores the registry of a store has the read timestamps
    of the transactions that were opened there and have neither been committed, with effect or without,
    nor discarded nor dropped, each as often as it occurs; so it counts them, and its oldest timestamp
    is the least one. The safepoint is the greatest timestamp that is above neither the watermark nor
    any of them. Whatever is done next, the watermark does not go back, and neither does the safepoint,
    unless somebody is let in below the watermark. -/
theorem registry_exact (configs : List Config) (shared : Bool) {run : List (Action V)} {i : Nat}
    {s : Store V} (hs : ((start configs shared : System V).exec run).stores[i]? = some s) :
    s.Registers (((start configs shared : System V).ledger run).readTimes i) ∧
      ∀ more s', ((start configs shared : System V).exec (run ++ more)).stores[i]? = some s' →
        s.watermark ≤ s'.watermark ∧
          (((start configs shared).exec run).honorsOn i more = true →
            s.safepoint ≤ s'.safepoint) := by
  have hsound := ((sound_start (V := V) configs shared).exec run).sound
  have hagrees := Ledger.agrees_ledger (V := V) configs shared run
  constructor
  · rw [← hsound.members_eq_readTimes hagrees hs]
    exact Store.registers_members (hsound.stores i s hs).ordered
  · intro more s' hs'
    rw [exec_append] at hs'
    constructor
    · have hages := hsound.ages_exec more i
      rw [hs, hs'] at hages
      cases hages with
      | some hage => exact hage.watermark_le
    · exact hsound.safepoint_le_exec hagrees hs hs'

/-- One of two transactions that read at 5 gives way to another of its name, and a commit is refused.
    Then the watermark has passed those that are left, the oldest one ends, and somebody is let in. -/
theorem registry_exact_amid_endings :
    let run : List (Action Nat) := [.openTxn 0 "a" 5 true, .openTxn 0 "b" 5 false,
      .openTxn 0 "c" 7 true, .openTxn 0 "b" 6 true, .commit "c" 3, .advanceWatermark 0 8]
    let more : List (Action Nat) := [.discard "a", .openTxn 0 "d" 8 false]
    ∃ s s', ((start [.standard] false).exec run).stores[0]? = some s ∧ s.Registers {5, 6} ∧
      ((start [.standard] false).exec (run ++ more)).stores[0]? = some s' ∧
      s.watermark ≤ s'.watermark ∧ s.safepoint ≤ s'.safepoint := by
  intro run more
  have hfirst : ((start [.standard] false : System Nat).exec run).stores[0]?.isSome := by
    decide +kernel
  have hsecond : ((start [.standard] false : System Nat).exec (run ++ more)).stores[0]?.isSome := by
    decide +kernel
  have hreading : ((start [.standard] false : System Nat).ledger run).readTimes 0 = {5, 6} := by
    decide +kernel
  have hhonors : ((start [.standard] false : System Nat).exec run).honorsOn 0 more = true := by
    decide +kernel
  obtain ⟨s, hs⟩ := Option.isSome_iff_exists.1 hfirst
  obtain ⟨s', hs'⟩ := Option.isSome_iff_exists.1 hsecond
  obtain ⟨hregisters, hlater⟩ := registry_exact [.standard] false hs
  obtain ⟨hwatermark, hsafepoint⟩ := hlater more s' hs'
  exact ⟨s, s', hs, hreading ▸ hregisters, hs', hwatermark, hsafepoint hhonors⟩

end System

end RadixStore
