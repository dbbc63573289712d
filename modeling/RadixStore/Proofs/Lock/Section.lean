import Mathlib
import RadixStore.Lock.Basic

/-!
# Write sections

Between two operations nobody holds a lock, and a node in the tree is not obsolete: the two low bits
of its word are clear. A write section on such a lock always succeeds and adds four to the word,
which clears the low bits again, whether or not the counter wraps around.
-/

namespace RadixStore.VersionLock

/-- Nobody holds the lock, and its node is linked. -/
def Idle (l : VersionLock) : Prop :=
  l.word.toNat % 4 = 0

/-- The lock after one more write section. -/
def stepped (l : VersionLock) : VersionLock :=
  ⟨l.word + 4⟩

/-- The lock after the write section in which its node was unlinked. -/
def ended (l : VersionLock) : VersionLock :=
  ⟨l.word + 5⟩

theorem idle_fresh : Idle fresh := rfl

theorem toNat_stepped (l : VersionLock) :
    l.stepped.word.toNat = (l.word.toNat + 4) % 2 ^ 64 :=
  UInt64.toNat_add l.word 4

theorem toNat_ended (l : VersionLock) : l.ended.word.toNat = (l.word.toNat + 5) % 2 ^ 64 :=
  UInt64.toNat_add l.word 5

theorem Idle.stepped {l : VersionLock} (h : l.Idle) : l.stepped.Idle := by
  have h : l.word.toNat % 4 = 0 := h
  show l.stepped.word.toNat % 4 = 0
  rw [toNat_stepped]
  omega

theorem stepped_ne (l : VersionLock) : l.stepped ≠ l := by
  intro h
  have hword := congrArg (fun l => l.word.toNat) h
  have hlt := l.word.toNat_lt
  rw [toNat_stepped] at hword
  omega

/-! ### Bits of an idle word -/

theorem and_two_eq_zero {n : Nat} (h : n % 4 < 2) : n &&& 2 = 0 := by
  have hbit : n.testBit 1 = false := by
    rw [Nat.testBit_eq_decide_div_mod_eq]
    simp
    omega
  have h2 := Nat.and_two_pow n 1
  rw [hbit] at h2
  simpa using h2

theorem or_two_eq_add {n : Nat} (h : n % 4 = 0) : n ||| 2 = n + 2 := by
  have hn : n = 2 ^ 2 * (n / 4) := by omega
  rw [hn, Nat.two_pow_add_eq_or_of_lt (by decide)]

theorem not_locked_of_mod_four {l : VersionLock} (h : l.word.toNat % 4 < 2) :
    l.isLocked = false := by
  have hzero : l.word &&& lockedBit = 0 := by
    apply UInt64.toNat_inj.1
    rw [UInt64.toNat_and]
    exact and_two_eq_zero h
  simp [isLocked, hzero]

/-- A node is obsolete when the word of its lock is odd. -/
theorem isObsolete_eq (l : VersionLock) : l.isObsolete = decide (l.word.toNat % 2 = 1) := by
  have hbit : (l.word &&& obsoleteBit).toNat = l.word.toNat % 2 := by
    rw [UInt64.toNat_and]
    exact Nat.and_one_is_mod _
  have hzero : l.word &&& obsoleteBit = 0 ↔ l.word.toNat % 2 = 0 := by
    rw [← UInt64.toNat_inj, hbit]
    rfl
  have hmod := Nat.mod_two_eq_zero_or_one l.word.toNat
  rw [Bool.eq_iff_iff, decide_eq_true_iff]
  unfold isObsolete
  rw [bne_iff_ne, ne_eq, hzero]
  omega

theorem Idle.not_locked {l : VersionLock} (h : l.Idle) : l.isLocked = false := by
  have h : l.word.toNat % 4 = 0 := h
  exact not_locked_of_mod_four (by omega)

theorem Idle.not_obsolete {l : VersionLock} (h : l.Idle) : l.isObsolete = false := by
  have h : l.word.toNat % 4 = 0 := h
  rw [isObsolete_eq, decide_eq_false_iff_not]
  omega

/-! ### What an idle lock grants -/

theorem Idle.liveSnapshot {l : VersionLock} (h : l.Idle) : l.liveSnapshot = .ok ⟨l.word⟩ := by
  have hobs : (Snapshot.mk l.word).isObsolete = false := h.not_obsolete
  unfold VersionLock.liveSnapshot VersionLock.snapshot
  rw [h.not_locked]
  show (if (Snapshot.mk l.word).isObsolete = true then Except.error Fault.obsolete
    else Except.ok (Snapshot.mk l.word)) = _
  rw [hobs]
  rfl

theorem Idle.acquire {l : VersionLock} (h : l.Idle) :
    l.acquire = .ok ⟨l.word ||| lockedBit⟩ := by
  have hobs : (Snapshot.mk l.word).isObsolete = false := h.not_obsolete
  unfold VersionLock.acquire
  rw [h.liveSnapshot]
  show l.upgrade ⟨l.word⟩ = _
  unfold upgrade
  rw [hobs]
  simp

theorem Idle.word_or_locked {l : VersionLock} (h : l.Idle) :
    l.word ||| lockedBit = l.word + 2 := by
  have hlt := l.word.toNat_lt
  have hmod : l.word.toNat % 4 = 0 := h
  apply UInt64.toNat_inj.1
  rw [UInt64.toNat_or, UInt64.toNat_add, show lockedBit.toNat = 2 from rfl,
    show (2 : UInt64).toNat = 2 from rfl, or_two_eq_add hmod, Nat.mod_eq_of_lt (by omega)]

theorem Idle.writeSection {l : VersionLock} (h : l.Idle) : l.writeSection = .ok l.stepped := by
  unfold VersionLock.writeSection
  rw [h.acquire, h.word_or_locked]
  show Except.ok (VersionLock.mk (l.word + 2 + 2)) = _
  rw [UInt64.add_assoc]
  rfl

theorem Idle.lastSection {l : VersionLock} (h : l.Idle) : l.lastSection = .ok l.ended := by
  unfold VersionLock.lastSection
  rw [h.acquire, h.word_or_locked]
  show Except.ok (VersionLock.mk (l.word + 2 + 3)) = _
  rw [UInt64.add_assoc]
  rfl

/-! ### What a write section leaves in the word -/

/-- The number of write sections that ended, as the word counts them. -/
def counter (l : VersionLock) : Nat :=
  (Snapshot.mk l.word).counter.toNat

theorem counter_eq (l : VersionLock) : l.counter = l.word.toNat / 4 := by
  show (l.word >>> 2).toNat = _
  rw [UInt64.toNat_shiftRight]
  exact Nat.shiftRight_eq_div_pow _ 2

theorem counter_stepped (l : VersionLock) : l.stepped.counter = (l.counter + 1) % 2 ^ 62 := by
  have hlt := l.word.toNat_lt
  rw [counter_eq, counter_eq, toNat_stepped]
  omega

theorem Idle.counter_ended {l : VersionLock} (h : l.Idle) :
    l.ended.counter = (l.counter + 1) % 2 ^ 62 := by
  have hlt := l.word.toNat_lt
  have h : l.word.toNat % 4 = 0 := h
  rw [counter_eq, counter_eq, toNat_ended]
  omega

theorem Idle.ended_not_locked {l : VersionLock} (h : l.Idle) : l.ended.isLocked = false := by
  have hlt := l.word.toNat_lt
  have h : l.word.toNat % 4 = 0 := h
  refine not_locked_of_mod_four ?_
  rw [toNat_ended]
  omega

theorem Idle.ended_obsolete {l : VersionLock} (h : l.Idle) : l.ended.isObsolete = true := by
  have hlt := l.word.toNat_lt
  have h : l.word.toNat % 4 = 0 := h
  rw [isObsolete_eq, decide_eq_true_iff, toNat_ended]
  omega

end RadixStore.VersionLock
