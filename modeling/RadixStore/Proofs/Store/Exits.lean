import Mathlib
import RadixStore.Store.Txn

/-!
# How a transaction ends

However a transaction ends, it has ended then, and going out of scope afterwards changes nothing: its
writes are not taken out and its registration is not given up a second time. A transaction that goes
out of scope without having ended is discarded.
-/

namespace RadixStore

variable {V : Type}

namespace Store

variable {s : Store V}

theorem finish_finished (s : Store V) (h : Handle V) : (s.finish h).2.finished = true := by
  unfold finish
  split
  · assumption
  · rfl

theorem abort_finished (s : Store V) (h : Handle V) : (s.abort h).2.finished = true :=
  finish_finished _ _

theorem conclude_finished (s : Store V) (h : Handle V) (ts : Timestamp) :
    (s.conclude h ts).2.finished = true := by
  unfold conclude
  split
  · exact abort_finished s h
  · dsimp only
    split <;> exact finish_finished _ _

theorem drop_of_finished {h : Handle V} (hfinished : h.finished = true) : s.drop h = s :=
  if_pos hfinished

theorem drop_abort (s : Store V) (h : Handle V) : (s.abort h).1.drop (s.abort h).2 = (s.abort h).1 :=
  drop_of_finished (abort_finished s h)

/-- Nothing is left to do for a transaction that goes out of scope after its commit. -/
theorem drop_conclude (s : Store V) (h : Handle V) (ts : Timestamp) :
    (s.conclude h ts).1.store.drop (s.conclude h ts).2 = (s.conclude h ts).1.store :=
  drop_of_finished (conclude_finished s h ts)

/-- To discard a transaction is to take its writes out and to give its registration up, once. -/
theorem discard_eq (s : Store V) (t : Txn V) : s.discard t = (s.withdraw t.writes).closeTxn t :=
  drop_abort s ⟨t, false⟩

/-- A transaction that goes out of scope without having ended is discarded. -/
theorem drop_eq_discard (s : Store V) (t : Txn V) : s.drop ⟨t, false⟩ = s.discard t :=
  (discard_eq s t).symm

theorem commit_eq (s : Store V) (t : Txn V) (ts : Timestamp) :
    s.commit t ts = (s.conclude ⟨t, false⟩ ts).1 := by
  simp only [commit, commitWith, drop_conclude]

/-- What the callback of a commit is told, and what it finds when it is called, are the verdict and
    the store that the commit comes to. -/
theorem commitWith_eq {α : Type} (s : Store V) (t : Txn V) (ts : Timestamp)
    (callback : Verdict → Store V → α) : s.commitWith t ts callback =
      (s.commit t ts, callback (s.commit t ts).verdict (s.commit t ts).store) := by
  simp only [commit, commitWith, drop_conclude]

variable {t : Txn V} {ts : Timestamp}

theorem commit_of_lt (hts : ts < t.readTs) :
    s.commit t ts = ⟨.error .beforeRead, s.discard t, 0⟩ := by
  rw [commit_eq, discard_eq, conclude, if_pos hts]
  rfl

/-- A commit makes the writes current and gives the registration up, once, before it trims the chains
    that it wrote. -/
theorem commit_of_le (hts : t.readTs ≤ ts) : s.commit t ts =
    let s := (s.publish ts t.writes).closeTxn t
    if s.config.inlineGc then
      let (s, cut) := s.trimChains s.safepoint (t.writes.map Prod.fst)
      ⟨.ok (), s, cut⟩
    else ⟨.ok (), s, 0⟩ := by
  have hfinish : (s.publish ts t.writes).finish ⟨{ t with writes := [] }, false⟩ =
      ((s.publish ts t.writes).closeTxn t, ⟨{ t with writes := [] }, true⟩) := rfl
  rw [commit_eq, conclude, if_neg (not_lt.2 hts)]
  dsimp only
  rw [hfinish]
  exact apply_ite Prod.fst _ _ _

theorem trimChains_fst (s : Store V) (safepoint : Timestamp) (keys : List Key) :
    (s.trimChains safepoint keys).1 = keys.foldl (fun s key => (s.trimChain key safepoint).1) s := by
  unfold trimChains
  generalize (0 : Nat) = n
  induction keys generalizing s n with
  | nil => rfl
  | cons key keys ih => exact ih _ _

/-- The store that a commit comes to: with the writes current and the registration given up, and, if
    it is configured so, with the chains that were written trimmed against the safepoint of then. -/
theorem commit_cases (hts : t.readTs ≤ ts) :
    let closed := (s.publish ts t.writes).closeTxn t
    (s.commit t ts).verdict = .ok () ∧ ((s.commit t ts).store = closed ∨
      closed.config.inlineGc = true ∧ (s.commit t ts).store =
        (t.writes.map Prod.fst).foldl (fun s key => (s.trimChain key closed.safepoint).1) closed) := by
  intro closed
  rw [commit_of_le hts]
  dsimp only
  split
  · rename_i hinline
    exact ⟨rfl, Or.inr ⟨hinline, trimChains_fst _ _ _⟩⟩
  · exact ⟨rfl, Or.inl rfl⟩

end Store

end RadixStore
