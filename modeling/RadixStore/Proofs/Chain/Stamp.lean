import Mathlib
import RadixStore.Chain.Stamp

/-!
# What read stamps rule out

A stamp admits a writer exactly when every read recorded on it does, and a read admits whoever reads
later, and its own reader at its timestamp.
-/

namespace RadixStore

namespace ReadStamp

variable {s : ReadStamp} {ts ts' : Timestamp} {reader writer : TxnId}

theorem admits_iff : s.admits ts writer = true ↔
    s.ts < ts ∨ s.ts = ts ∧ (s.readers = .nobody ∨ s.readers = .only writer) := by
  simp [admits]

/-- Anybody may supersede a version that nobody has read. -/
theorem admits_fresh (ts : Timestamp) (writer : TxnId) :
    (fresh : ReadStamp).admits ts writer = true := by
  rw [admits_iff]
  rcases Nat.eq_zero_or_pos ts with rfl | hpos
  · exact Or.inr ⟨rfl, Or.inl rfl⟩
  · exact Or.inl hpos

/-- Recording a read rules out whom the read rules out, and nobody else. -/
theorem admits_observe_iff : (s.observe ts reader).admits ts' writer = true ↔
    s.admits ts' writer = true ∧ (ts < ts' ∨ ts = ts' ∧ writer = reader) := by
  rcases lt_trichotomy s.ts ts with hlt | heq | hgt
  · have hobserve : s.observe ts reader = ⟨ts, .only reader⟩ := by simp [observe, hlt]
    rw [hobserve, admits_iff, admits_iff]
    constructor
    · rintro (hts | ⟨rfl, hreader⟩)
      · exact ⟨Or.inl (hlt.trans hts), Or.inl hts⟩
      · exact ⟨Or.inl hlt, Or.inr ⟨rfl, by simpa [eq_comm] using hreader⟩⟩
    · rintro ⟨-, hts | ⟨rfl, rfl⟩⟩
      · exact Or.inl hts
      · exact Or.inr ⟨rfl, Or.inr rfl⟩
  · subst heq
    obtain ⟨high, readers⟩ := s
    cases readers with
    | nobody =>
      simp only [observe, admits_iff, lt_irrefl, if_false, if_true]
      grind
    | only other =>
      simp only [observe, admits_iff, lt_irrefl, if_false, if_true]
      grind
    | several =>
      simp only [observe, admits_iff, lt_irrefl, if_false, if_true]
      grind
  · have hobserve : s.observe ts reader = s := by
      simp [observe, not_lt_of_gt hgt, ne_of_lt hgt]
    rw [hobserve, admits_iff]
    constructor
    · intro h
      refine ⟨h, Or.inl ?_⟩
      rcases h with hts | ⟨rfl, -⟩
      · exact hgt.trans hts
      · exact hgt
    · exact And.left

/-- Whoever may supersede the version reads later than `ts`, or is `reader` and reads at `ts`. -/
def Guards (s : ReadStamp) (ts : Timestamp) (reader : TxnId) : Prop :=
  ∀ ts' writer, s.admits ts' writer = true → ts < ts' ∨ ts = ts' ∧ writer = reader

theorem guards_observe (s : ReadStamp) (ts : Timestamp) (reader : TxnId) :
    (s.observe ts reader).Guards ts reader :=
  fun _ _ h => (admits_observe_iff.1 h).2

theorem Guards.observe {other : TxnId} (h : s.Guards ts reader) :
    (s.observe ts' other).Guards ts reader :=
  fun _ _ hadmits => h _ _ (admits_observe_iff.1 hadmits).1

end ReadStamp

end RadixStore
