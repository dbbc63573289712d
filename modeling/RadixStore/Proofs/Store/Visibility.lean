import Mathlib
import RadixStore.Proofs.Chain.Stamp
import RadixStore.Proofs.Chain.Timeline
import RadixStore.Proofs.Store.System

/-!
# What is visible at a timestamp

In every reachable system the committed versions of a key share out the time since the oldest of them
began. So a read below the end of time comes to the one version that is valid then, at the first
attempt, and leaves nothing behind but the record of the read on that version.
-/

namespace RadixStore

variable {V : Type}

namespace Chain

variable {c : Chain V} {draft : Option (Draft V)} {hist : List (Version V)} {ts : Timestamp}

/-- Whoever is told that there is no version reads before all versions, and the other way round. -/
theorem Shape.absent_iff (h : c.Shape draft hist) (hts : ts < infinity) (reader : TxnId) :
    (c.look ts reader).1.answer = .error .absent ↔ ∀ v ∈ c.timeline, ts < v.beginTs := by
  rcases h.look_cases hts reader with ⟨hlook, hlate⟩ | ⟨newer, x, older, hversions, hx, hvalid, -, hlook⟩
  · rw [hlook]
    exact iff_of_true rfl hlate
  · rw [hlook]
    refine iff_of_false ?_ ?_
    · dsimp only
      split <;> simp [Sight.answer]
    · intro hlate
      have hmem : x ∈ c.timeline := List.mem_filter.2 ⟨by simp [hversions], hx⟩
      exact absurd hvalid.1 (not_le.2 (hlate x hmem))

theorem Shape.look_ne_superseded (h : c.Shape draft hist) (hts : ts < infinity) (reader : TxnId) :
    (c.look ts reader).1 ≠ .superseded := by
  rcases h.look_cases hts reader with ⟨hlook, -⟩ | ⟨newer, x, older, -, -, -, -, hlook⟩
  · simp [hlook]
  · rw [hlook]
    dsimp only
    split <;> simp

end Chain

namespace System

variable {sys : System V} {i : Nat} {s : Store V} {ts : Timestamp}

/-- In every reachable system a read of any key below the end of time is exact. The validities of the
    committed versions adjoin and do not overlap. The read never has to start again. It is told that
    there is no version exactly when all of them begin later, and then leaves no trace. Otherwise
    exactly one version is valid at the timestamp; the read is refused when another transaction than
    the reader holds this version and shown its value when not, and is recorded on this version and
    nowhere else. The record rules out every writer below the timestamp, every writer but the reader
    at it, and nobody who was not ruled out before. -/
theorem Reachable.visibility_exact (h : sys.Reachable) (hs : sys.stores[i]? = some s) (key : Key)
    (hts : ts < infinity) (reader : TxnId) :
    (s.chain key).timeline.Pairwise
        (fun newer older => Disjoint newer.validity older.validity) ∧
      (s.chain key).timeline.IsChain (fun newer older => older.endTs = newer.beginTs) ∧
      ((s.chain key).look ts reader).1 ≠ .superseded ∧
      (((s.chain key).look ts reader).1.answer = .error .absent ↔
        ∀ v ∈ (s.chain key).timeline, ts < v.beginTs) ∧
      ((∀ v ∈ (s.chain key).timeline, ts < v.beginTs) →
        ((s.chain key).look ts reader).2 = s.chain key) ∧
      ((∃ v ∈ (s.chain key).timeline, v.beginTs ≤ ts) →
        ∃ newer x older, (s.chain key).versions = newer ++ x :: older ∧ x.committed = true ∧
          ts ∈ x.validity ∧ (∀ y ∈ newer ++ older, y.committed = true → ts ∉ y.validity) ∧
          (((s.chain key).look ts reader).1.answer = .error .held ↔
            ∃ other, x.holder = some other ∧ other ≠ reader) ∧
          (((s.chain key).look ts reader).1.answer = .error .held ∨
            ((s.chain key).look ts reader).1.answer = .ok x.value) ∧
          ((s.chain key).look ts reader).2 =
            ⟨newer ++ { x with stamp := x.stamp.observe ts reader } :: older,
              (s.chain key).nextSerial⟩ ∧
          ∀ ts' writer, (x.stamp.observe ts reader).admits ts' writer = true ↔
            x.stamp.admits ts' writer = true ∧ (ts < ts' ∨ ts = ts' ∧ writer = reader)) := by
  obtain ⟨draft, hist, hholds⟩ := h.holds hs key
  have hshape : (s.chain key).Shape draft hist := hholds.shape
  refine ⟨hshape.disjoint, hshape.ends_adjoin, hshape.look_ne_superseded hts reader,
    hshape.absent_iff hts reader, ?_, ?_⟩
  · intro hlate
    rcases hshape.look_cases hts reader with ⟨hlook, -⟩ | ⟨newer, x, older, hversions, hx, hvalid, -⟩
    · rw [hlook]
    · have hmem : x ∈ (s.chain key).timeline := List.mem_filter.2 ⟨by simp [hversions], hx⟩
      exact absurd hvalid.1 (not_le.2 (hlate x hmem))
  · rintro ⟨v, hv, hbegin⟩
    rcases hshape.look_cases hts reader with
      ⟨-, hlate⟩ | ⟨newer, x, older, hversions, hx, hvalid, hothers, hlook⟩
    · exact absurd hbegin (not_le.2 (hlate v hv))
    · refine ⟨newer, x, older, hversions, hx, hvalid, hothers, ?_⟩
      rw [hlook, ← Version.isHeldAgainst_iff]
      dsimp only
      split
      · rename_i hheld
        exact ⟨iff_of_true rfl hheld, Or.inl rfl, rfl, fun _ _ => ReadStamp.admits_observe_iff⟩
      · rename_i hfree
        exact ⟨iff_of_false (by simp [Sight.answer]) hfree, Or.inr rfl, rfl,
          fun _ _ => ReadStamp.admits_observe_iff⟩

/-- A transaction holds the only committed version for a write of its own, and another one reads. -/
theorem visibility_exact_amid_write : ∃ (sys : System Nat) (s : Store Nat),
    sys = (start [.standard] false).exec [.openTxn 0 "w" 1 true, .set "w" [7] 5, .commit "w" 2,
      .openTxn 0 "w" 3 true, .set "w" [7] 6] ∧
    sys.stores[0]? = some s ∧ ((s.chain [7]).look 3 9).1 ≠ .superseded ∧
    ∃ newer x older, (s.chain [7]).versions = newer ++ x :: older ∧ 3 ∈ x.validity ∧
      (((s.chain [7]).look 3 9).1.answer = .error .held ∨
        ((s.chain [7]).look 3 9).1.answer = .ok x.value) := by
  have hreachable : ((start [.standard] false : System Nat).exec [.openTxn 0 "w" 1 true,
      .set "w" [7] 5, .commit "w" 2, .openTxn 0 "w" 3 true, .set "w" [7] 6]).Reachable :=
    ⟨_, _, _, rfl⟩
  obtain ⟨s, hs⟩ := Option.isSome_iff_exists.1 (show ((start [.standard] false : System Nat).exec
    [.openTxn 0 "w" 1 true, .set "w" [7] 5, .commit "w" 2, .openTxn 0 "w" 3 true,
      .set "w" [7] 6]).stores[0]?.isSome = true by decide +kernel)
  obtain ⟨-, -, hsight, -, -, hexact⟩ := hreachable.visibility_exact hs [7]
    (show 3 < infinity by decide) 9
  have hline : (((start [.standard] false : System Nat).exec [.openTxn 0 "w" 1 true,
      .set "w" [7] 5, .commit "w" 2, .openTxn 0 "w" 3 true, .set "w" [7] 6]).stores[0]?.map
        fun s => (s.chain [7]).timeline.map Version.beginTs) = some [2] := by decide +kernel
  rw [hs, Option.map_some, Option.some_inj] at hline
  have hbegun : ∃ v ∈ (s.chain [7]).timeline, v.beginTs ≤ 3 := by
    have hmem : 2 ∈ (s.chain [7]).timeline.map Version.beginTs := by simp [hline]
    obtain ⟨v, hv, hbegin⟩ := List.mem_map.1 hmem
    exact ⟨v, hv, hbegin.le.trans (by decide)⟩
  obtain ⟨newer, x, older, hversions, -, hvalid, -, -, hanswer, -⟩ := hexact hbegun
  exact ⟨_, s, rfl, hs, hsight, newer, x, older, hversions, hvalid, hanswer⟩

end System

end RadixStore
