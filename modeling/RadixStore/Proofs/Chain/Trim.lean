import Mathlib
import RadixStore.Proofs.Chain.History

/-!
# Trimming

Trimming a chain against a safepoint leaves its versions up to the newest one settled by the
safepoint. Whoever reads at or above the safepoint gets no further than that one, and whoever writes
looks only at the newest version. So every operation of such a transaction answers the same before
and after the trimming, and trimming afterwards makes up for the difference.
-/

namespace RadixStore

variable {V : Type}

theorem Version.isSettledBy_mono {v : Version V} {ts ts' : Timestamp} (hle : ts ≤ ts')
    (h : v.isSettledBy ts = true) : v.isSettledBy ts' = true := by
  simp only [isSettledBy, Bool.and_eq_true, decide_eq_true_eq] at h ⊢
  exact ⟨h.1, h.2.trans hle⟩

/-! ### What is kept of a list of versions -/

/-- The versions up to the newest one settled by `safepoint`. -/
def kept (safepoint : Timestamp) (l : List (Version V)) : List (Version V) :=
  (Chain.cutIn safepoint l).1

section Kept

variable {safepoint ts : Timestamp} {l : List (Version V)} {v : Version V}

@[simp] theorem kept_nil : kept safepoint ([] : List (Version V)) = [] := rfl

@[simp] theorem kept_cons (v : Version V) (l : List (Version V)) :
    kept safepoint (v :: l) = v :: if v.isSettledBy safepoint then [] else kept safepoint l := by
  by_cases hv : v.isSettledBy safepoint = true
  · simp [kept, Chain.cutIn, hv]
  · simp [kept, Chain.cutIn, hv]

@[simp] theorem head?_kept : (kept safepoint l).head? = l.head? := by
  cases l <;> simp

theorem kept_kept (hle : safepoint ≤ ts) : kept ts (kept safepoint l) = kept ts l := by
  induction l with
  | nil => rfl
  | cons v l ih =>
    by_cases hv : v.isSettledBy safepoint = true
    · simp [hv, Version.isSettledBy_mono hle hv]
    · by_cases hts : v.isSettledBy ts = true
      · simp [hts]
      · simp [hv, hts, ih]

theorem kept_initial (l : List (Version V)) : kept safepoint l <+: l := by
  induction l with
  | nil => simp
  | cons v l ih =>
    by_cases hv : v.isSettledBy safepoint = true
    · simp [hv]
    · simpa [hv] using ih

theorem kept_hold (owner : TxnId) (hist : List (Version V)) :
    kept safepoint (hold owner hist) = hold owner (kept safepoint hist) := by
  cases hist with
  | nil => rfl
  | cons v older => simp [hold, Version.isSettledBy]

theorem kept_endAt (hist : List (Version V)) :
    kept safepoint (endAt ts hist) = endAt ts (kept safepoint hist) := by
  cases hist with
  | nil => rfl
  | cons v older => simp [endAt, Version.isSettledBy]

theorem kept_layout (draft : Option (Draft V)) (hist : List (Version V)) :
    kept safepoint (layout draft hist) = layout draft (kept safepoint hist) := by
  cases draft with
  | none => rfl
  | some d => simp [layout, kept_hold]

theorem History.kept {fin : Timestamp} (h : History fin l) :
    History fin (kept safepoint l) := by
  induction h with
  | nil => exact .nil
  | @cons _ v older hcommitted hreleased hend hbegins _ ih =>
    rw [kept_cons]
    refine .cons hcommitted hreleased hend ?_ ?_
    · intro w hw
      split at hw
      · simp at hw
      · exact hbegins w ((kept_initial older).subset hw)
    · split
      · exact .nil
      · exact ih

theorem installedOn_kept (serial : Serial) (hist : List (Version V)) :
    installedOn serial (RadixStore.kept safepoint hist) = installedOn serial hist := by
  simp [installedOn]

end Kept

/-! ### Trimmed chains -/

namespace Chain

/-- What trimming leaves of a chain. -/
def pruned (safepoint : Timestamp) (c : Chain V) : Chain V :=
  ⟨kept safepoint c.versions, c.nextSerial⟩

variable {c c' : Chain V} {safepoint ts : Timestamp} {id : TxnId} {value : V} {i : Installed}
  {draft : Option (Draft V)} {hist : List (Version V)}

theorem Shape.pruned (h : c.Shape draft hist) :
    (c.pruned safepoint).Shape draft (kept safepoint hist) := by
  refine ⟨?_, h.history.kept, ?_⟩
  · show kept safepoint c.versions = _
    rw [h.versions_eq, kept_layout]
  · have hinitial : kept safepoint c.versions <+: c.versions := kept_initial c.versions
    exact h.serials.sublist ((hinitial.sublist.map Version.serial).cons_cons _)

@[simp] theorem pruned_pruned (hle : safepoint ≤ ts) (c : Chain V) :
    (c.pruned safepoint).pruned ts = c.pruned ts := by
  simp [Chain.pruned, kept_kept hle]

@[simp] theorem pruned_empty : (empty : Chain V).pruned safepoint = empty := rfl

/-! ### Operations on trimmed chains -/

theorem lookIn_kept (hle : safepoint ≤ ts) (l : List (Version V)) :
    lookIn ts id (kept safepoint l) = ((lookIn ts id l).1, kept safepoint (lookIn ts id l).2) := by
  induction l with
  | nil => rfl
  | cons v l ih =>
    by_cases hts : v.isSettledBy ts = true
    · by_cases hv : v.isSettledBy safepoint = true
      · have hstamped : ({ v with stamp := v.stamp.observe ts id } : Version V).isSettledBy
            safepoint = true := hv
        simp [lookIn, hts, hv, hstamped]
      · have hv : v.isSettledBy safepoint = false := by simpa using hv
        have hstamped : ({ v with stamp := v.stamp.observe ts id } : Version V).isSettledBy
            safepoint = false := hv
        simp [lookIn, hts, hv, hstamped]
    · have hv : ¬ v.isSettledBy safepoint = true := fun hv =>
        hts (Version.isSettledBy_mono hle hv)
      simp [lookIn, hts, hv, ih]

/-- A reader at or above the safepoint finds the same in the trimmed chain. -/
theorem look_pruned (hle : safepoint ≤ ts) (c : Chain V) :
    (c.pruned safepoint).look ts id = ((c.look ts id).1, (c.look ts id).2.pruned safepoint) := by
  simp [Chain.look, Chain.pruned, lookIn_kept hle]

/-- A writer comes to the same with the trimmed chain. -/
theorem install_pruned (c : Chain V) (readTs : Timestamp) :
    (c.pruned safepoint).install id readTs value =
      (c.install id readTs value).map fun r => (r.1.pruned safepoint, r.2) := by
  obtain ⟨versions, nextSerial⟩ := c
  cases versions with
  | nil => rfl
  | cons head older =>
    simp only [Chain.install_eq, Chain.pruned, kept_cons]
    split
    · rfl
    · split
      · have hheld : ∀ holder : Option TxnId,
            ({ head with holder := holder } : Version V).isSettledBy safepoint =
              head.isSettledBy safepoint := fun _ => rfl
        simp [Except.map, hheld]
      · rfl

/-- What a commit makes of two chains that differ by trimming differs by trimming. -/
theorem pruned_published {hist' : List (Version V)} (hle : safepoint ≤ ts)
    (hkept : kept safepoint hist = kept safepoint hist') (d : Draft V) (commitTs : Timestamp) :
    kept ts (d.published commitTs :: endAt commitTs hist) =
      kept ts (d.published commitTs :: endAt commitTs hist') := by
  have hts : kept ts hist = kept ts hist' := by
    rw [← kept_kept hle, hkept, kept_kept hle]
  simp [kept_endAt, hts]

/-- Behind the same draft, chains that differ by trimming have histories that differ by trimming. -/
theorem Shape.kept_eq {hist' : List (Version V)} (h : c.Shape draft hist)
    (h' : c'.Shape draft hist') (heq : c.pruned safepoint = c'.pruned safepoint) :
    kept safepoint hist = kept safepoint hist' := by
  have hversions : layout draft (kept safepoint hist) = layout draft (kept safepoint hist') := by
    rw [← h.pruned.versions_eq, ← h'.pruned.versions_eq, heq]
  cases draft with
  | none => exact hversions
  | some d =>
    -- the versions in front are held by the same owner and were released before
    have hheld : hold d.owner (kept safepoint hist) = hold d.owner (kept safepoint hist') :=
      (List.cons.inj hversions).2
    have hhist := (h.pruned : (c.pruned safepoint).Shape _ _).history
    have hhist' := (h'.pruned : (c'.pruned safepoint).Shape _ _).history
    cases hl : kept safepoint hist with
    | nil =>
      cases hl' : kept safepoint hist' with
      | nil => rfl
      | cons v' older' =>
        rw [hl, hl'] at hheld
        cases hheld
    | cons v older =>
      cases hl' : kept safepoint hist' with
      | nil =>
        rw [hl, hl'] at hheld
        cases hheld
      | cons v' older' =>
        rw [hl, hl'] at hheld
        rw [hl] at hhist
        rw [hl'] at hhist'
        have hv : v.holder = none := hhist.released (by simp)
        have hv' : v'.holder = none := hhist'.released (by simp)
        obtain ⟨serial, holder, stamp, beginTs, endTs, committed, value⟩ := v
        obtain ⟨serial', holder', stamp', beginTs', endTs', committed', value'⟩ := v'
        simp only [hold, List.cons.injEq, Version.mk.injEq] at hheld hv hv' ⊢
        simp [hheld, hv, hv']

end Chain

end RadixStore
