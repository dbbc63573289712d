import Mathlib
import RadixStore.Chain.Basic

/-!
# Holding and releasing a version

A write holds the version that it is to supersede before it looks at it. If it is refused then, it
releases the version, which is as it was before. So a refused write leaves no trace in the chain.
-/

namespace RadixStore

variable {V : Type}

namespace Version

variable {v held : Version V} {txn : TxnId}

theorem hold?_eq_some_iff :
    v.hold? txn = some held ↔ v.holder = none ∧ { v with holder := some txn } = held := by
  cases hholder : v.holder <;> simp [hold?, hholder]

theorem hold?_eq_none_iff : v.hold? txn = none ↔ v.holder.isSome = true := by
  cases hholder : v.holder <;> simp [hold?, hholder]

/-- Releasing a version that was held just now undoes the holding. -/
theorem release_of_hold? (h : v.hold? txn = some held) : held.release = v := by
  obtain ⟨hfree, rfl⟩ := hold?_eq_some_iff.1 h
  simp [release, ← hfree]

end Version

namespace Chain

variable {c : Chain V} {txn : TxnId} {readTs : Timestamp} {value : V}

/-- A refused write leaves the chain as it was, also where it held a version for a while. -/
theorem attempt_refused {e : Refusal} (h : (c.attempt txn readTs value).1 = .error e) :
    (c.attempt txn readTs value).2 = c := by
  obtain ⟨versions, next⟩ := c
  cases versions with
  | nil => simp [attempt] at h
  | cons head older =>
    cases hhold : head.hold? txn with
    | none => simp [attempt, hhold]
    | some held =>
      by_cases hadmits : (held.stamp.admits readTs txn && decide (held.beginTs ≤ readTs)) = true
      · simp [attempt, hhold, hadmits] at h
      · simp [attempt, hhold, hadmits, Version.release_of_hold? hhold]

/-- A write in one go: it is refused if the current version is held, or else by what is recorded on
    the current version; and holds the current version if it is not refused. -/
theorem install_eq (c : Chain V) (txn : TxnId) (readTs : Timestamp) (value : V) :
    c.install txn readTs value =
      let node : Version V := .pending c.nextSerial (some txn) value
      match c.versions with
      | [] => .ok (⟨[node], c.nextSerial + 1⟩, ⟨node.serial, none⟩)
      | head :: older =>
        if head.holder.isSome then .error .contended
        else if head.stamp.admits readTs txn && head.beginTs ≤ readTs then
          .ok (⟨node :: { head with holder := some txn } :: older, c.nextSerial + 1⟩,
            ⟨node.serial, some head.serial⟩)
        else .error .conflict := by
  obtain ⟨versions, next⟩ := c
  cases versions with
  | nil => rfl
  | cons head older =>
    cases hhold : head.hold? txn with
    | none => simp [install, attempt, hhold, Version.hold?_eq_none_iff.1 hhold]
    | some held =>
      obtain ⟨hfree, rfl⟩ := Version.hold?_eq_some_iff.1 hhold
      by_cases hadmits : (head.stamp.admits readTs txn && decide (head.beginTs ≤ readTs)) = true
      · simp [install, attempt, hhold, hfree, hadmits]
      · simp [install, attempt, hhold, hfree, hadmits]

end Chain

end RadixStore
