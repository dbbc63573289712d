import RadixStore.Fault
import RadixStore.Text.Record

/-!
# The version lock

The lock of an inner node is one 64-bit word. Bit 0 says that the node is obsolete, bit 1 that a
writer holds the lock, and the other bits count the write sections that have ended.

    unlocked n  --upgrade-->  locked n  --release-->  unlocked (n + 1)
                                        --retire--->  obsolete (n + 1)

Readers do not lock. They take a snapshot of the word, read, and check that the word is still
the same; writers turn a snapshot into exclusive access. Both ways of ending a write section
add to the word once, clearing the lock bit by carrying it into the counter.
-/

namespace RadixStore

/-- Bit 0 of a lock word: the node was unlinked and nobody may trust it. -/
def obsoleteBit : UInt64 := 1

/-- Bit 1 of a lock word: a writer holds the lock. -/
def lockedBit : UInt64 := 2

/-- A snapshot of a lock word. -/
structure Snapshot where
  word : UInt64
deriving DecidableEq, Repr

namespace Snapshot

/-- Whether the node was unlinked already when the snapshot was taken. -/
def isObsolete (v : Snapshot) : Bool :=
  v.word &&& obsoleteBit != 0

/-- The number of write sections ended before the snapshot. -/
def counter (v : Snapshot) : UInt64 :=
  v.word >>> 2

def text (v : Snapshot) : String :=
  "Version(" ++ toString v.word.toNat ++ ")"

end Snapshot

/-- A version lock is its word. -/
structure VersionLock where
  word : UInt64
deriving DecidableEq, Repr

namespace VersionLock

/-- A lock on which no write section has begun yet. -/
def fresh : VersionLock := ⟨0⟩

def isLocked (l : VersionLock) : Bool :=
  l.word &&& lockedBit != 0

def isObsolete (l : VersionLock) : Bool :=
  l.word &&& obsoleteBit != 0

/-! ### Reading -/

/-- A snapshot of the word; there is none while a writer holds the lock. -/
def snapshot (l : VersionLock) : Except Fault Snapshot :=
  if l.isLocked then .error .held else .ok ⟨l.word⟩

/-- A snapshot of a node that is still linked. -/
def liveSnapshot (l : VersionLock) : Except Fault Snapshot := do
  let v ← l.snapshot
  if v.isObsolete then .error .obsolete else .ok v

/-- A snapshot is valid as long as the word has not changed. -/
def validate (l : VersionLock) (v : Snapshot) : Except Fault Unit :=
  if l.word = v.word then .ok () else .error .stale

/-! ### Writing -/

/-- Turn a snapshot into exclusive access: the word must be the one seen and the node linked. -/
def upgrade (l : VersionLock) (v : Snapshot) : Except Fault VersionLock :=
  if v.isObsolete then .error .obsolete
  else if l.word = v.word then .ok ⟨v.word ||| lockedBit⟩
  else .error .stale

/-- Exclusive access without an earlier snapshot. -/
def acquire (l : VersionLock) : Except Fault VersionLock := do
  l.upgrade (← l.liveSnapshot)

/-- End a write section: the lock bit is carried into the counter. -/
def release (l : VersionLock) : VersionLock :=
  ⟨l.word + lockedBit⟩

/-- End the last write section of a node that has been unlinked. -/
def retire (l : VersionLock) : VersionLock :=
  ⟨l.word + (lockedBit ||| obsoleteBit)⟩

/-- One whole write section. -/
def writeSection (l : VersionLock) : Except Fault VersionLock :=
  l.acquire.map release

/-- The whole write section that unlinks the node. -/
def lastSection (l : VersionLock) : Except Fault VersionLock :=
  l.acquire.map retire

/-! ### Text -/

def text (l : VersionLock) : String :=
  Text.record "OptLock"
    [("version", toString (l.word >>> 2).toNat),
     ("locked", Text.flag l.isLocked),
     ("obsolete", Text.flag l.isObsolete)]

/-- The text of the exclusive access to `l` while it lasts. -/
def guardText (l : VersionLock) : String :=
  Text.record "WriteGuard"
    [("lock", l.text), ("obsolete", Text.flag false), ("_marker", "PhantomData<*mut ()>")]

end VersionLock

end RadixStore
