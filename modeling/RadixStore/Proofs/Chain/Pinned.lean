import Mathlib
import RadixStore.Proofs.Chain.Stamp
import RadixStore.Proofs.Chain.Trim

/-!
# Pinned versions

A version that was shown to a reader is pinned at the timestamp of the read: it is the one found
there, and nobody but the reader supersedes it without reading later. Reads, later commits and
trimming at or below the timestamp leave it pinned.
-/

namespace RadixStore

variable {V : Type}

/-- The first version settled by `ts` has the value `v` and goes on past `ts`, and whoever may
    supersede it reads later, or is `reader`. -/
def Pinned (ts : Timestamp) (reader : TxnId) (v : V) : List (Version V) → Prop
  | [] => False
  | x :: older =>
    if x.isSettledBy ts then x.value = v ∧ ts < x.endTs ∧ x.stamp.Guards ts reader
    else Pinned ts reader v older

section Pinned

variable {ts : Timestamp} {reader : TxnId} {v : V} {hist : List (Version V)}

theorem pinned_of_lookIn (h : (Chain.lookIn ts reader hist).1 = .value v) :
    Pinned ts reader v (Chain.lookIn ts reader hist).2 := by
  induction hist with
  | nil => simp [Chain.lookIn] at h
  | cons x older ih =>
    by_cases hx : x.isSettledBy ts = true
    · simp only [Chain.lookIn, hx, if_true] at h ⊢
      have hstamped : ({ x with stamp := x.stamp.observe ts reader } : Version V).isSettledBy ts =
          true := hx
      unfold Chain.sightOf at h
      split at h
      · simp at h
      · split at h
        · simp at h
        · rename_i hend
          simp only [Pinned, hstamped, if_true]
          exact ⟨by simpa using h, by simpa using hend, ReadStamp.guards_observe _ _ _⟩
    · simp only [Chain.lookIn, hx, if_false, Bool.false_eq_true] at h ⊢
      simp only [Pinned, hx, if_false, Bool.false_eq_true]
      exact ih h

/-- At its timestamp a pinned version is shown, unless it is held against the reader. -/
theorem Pinned.lookIn (h : Pinned ts reader v hist) (other : TxnId) :
    (Chain.lookIn ts other hist).1 = .value v ∨ (Chain.lookIn ts other hist).1 = .held := by
  induction hist with
  | nil => exact h.elim
  | cons x older ih =>
    by_cases hx : x.isSettledBy ts = true
    · simp only [Pinned, hx, if_true] at h
      obtain ⟨rfl, hend, -⟩ := h
      simp only [Chain.lookIn, hx, if_true, Chain.sightOf]
      split
      · exact Or.inr rfl
      · rw [if_neg (not_le.2 hend)]
        exact Or.inl rfl
    · simp only [Pinned, hx, if_false, Bool.false_eq_true] at h
      simp only [Chain.lookIn, hx, if_false, Bool.false_eq_true]
      exact ih h

theorem Pinned.look (h : Pinned ts reader v hist) (ts' : Timestamp) (other : TxnId) :
    Pinned ts reader v (Chain.lookIn ts' other hist).2 := by
  induction hist with
  | nil => exact h
  | cons x older ih =>
    have hstamped : ({ x with stamp := x.stamp.observe ts' other } : Version V).isSettledBy ts =
        x.isSettledBy ts := rfl
    by_cases hx' : x.isSettledBy ts' = true
    · simp only [Chain.lookIn, hx', if_true]
      by_cases hx : x.isSettledBy ts = true
      · simp only [Pinned, hstamped, hx, if_true] at h ⊢
        exact ⟨h.1, h.2.1, h.2.2.observe⟩
      · simpa only [Pinned, hstamped, hx, if_false, Bool.false_eq_true] using h
    · simp only [Chain.lookIn, hx', if_false, Bool.false_eq_true]
      by_cases hx : x.isSettledBy ts = true
      · simpa only [Pinned, hx, if_true] using h
      · simp only [Pinned, hx, if_false, Bool.false_eq_true] at h ⊢
        exact ih h

/-- Trimming below the timestamp leaves it pinned. -/
theorem Pinned.kept (h : Pinned ts reader v hist) {safepoint : Timestamp} (hle : safepoint ≤ ts) :
    Pinned ts reader v (kept safepoint hist) := by
  induction hist with
  | nil => exact h
  | cons x older ih =>
    rw [kept_cons]
    by_cases hx : x.isSettledBy ts = true
    · simpa only [Pinned, hx, if_true] using h
    · have hsafe : ¬ x.isSettledBy safepoint = true := fun hsafe =>
        hx (Version.isSettledBy_mono hle hsafe)
      simp only [Pinned, hx, hsafe, if_false, Bool.false_eq_true] at h ⊢
      exact ih h

/-- A version committed after the timestamp leaves it pinned. -/
theorem Pinned.published (h : Pinned ts reader v hist) {d : Draft V} {ts' : Timestamp}
    (hlt : ts < ts') : Pinned ts reader v (d.published ts' :: endAt ts' hist) := by
  have hnew : (d.published ts').isSettledBy ts = false := by
    simp [Draft.published, Version.isSettledBy, not_le.2 hlt]
  simp only [Pinned, hnew, if_false, Bool.false_eq_true]
  cases hist with
  | nil => exact h
  | cons x older =>
    have hended : ({ x with endTs := ts' } : Version V).isSettledBy ts = x.isSettledBy ts := rfl
    by_cases hx : x.isSettledBy ts = true
    · simp only [endAt, Pinned, hended, hx, if_true] at h ⊢
      exact ⟨h.1, hlt, h.2.2⟩
    · simpa only [endAt, Pinned, hended, hx, if_false, Bool.false_eq_true] using h

theorem pinned_layout {draft : Option (Draft V)} :
    Pinned ts reader v (layout draft hist) ↔ Pinned ts reader v hist := by
  cases draft with
  | none => rfl
  | some d =>
    cases hist with
    | nil => simp [layout, hold, Pinned]
    | cons x older =>
      have hheld : ({ x with holder := some d.owner } : Version V).isSettledBy ts =
          x.isSettledBy ts := rfl
      simp [layout, hold, Pinned, hheld]

/-- Who is admitted to supersede the newest version reads after the timestamp, or is the reader. -/
theorem Pinned.lt_of_admits (h : Pinned ts reader v hist) {fin readTs : Timestamp}
    {writer : TxnId} (hhist : History fin hist)
    (hadmits : ∀ head ∈ hist.head?, head.stamp.admits readTs writer = true ∧
      head.beginTs ≤ readTs) (hne : writer ≠ reader) : ts < readTs := by
  cases hist with
  | nil => exact h.elim
  | cons x older =>
    obtain ⟨hstamp, hbegin⟩ := hadmits x rfl
    by_cases hx : x.isSettledBy ts = true
    · simp only [Pinned, hx, if_true] at h
      rcases h.2.2 readTs writer hstamp with hlt | ⟨-, heq⟩
      · exact hlt
      · exact absurd heq hne
    · rw [hhist.isSettledBy_iff (by simp), not_le] at hx
      exact hx.trans_le hbegin

end Pinned

end RadixStore
