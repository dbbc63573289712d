import RadixStore.Chain.Stamp
import RadixStore.Refusal

/-!
# Version chains

All versions of one key, newest first. A committed version is valid from `beginTs` up to, but not
including, `endTs`. A transaction that writes the key puts a pending version in front and holds it
and the version it is to supersede until it ends:

    [pending, held by 7]  ->  [from 5, held by 7]  ->  [from 2 to 5]

Versions carry serial numbers, by which a transaction finds the two it holds again.
-/

namespace RadixStore

variable {V : Type}

/-- The number of a version within its chain. -/
abbrev Serial := Nat

/-- One version of the value of a key. -/
structure Version (V : Type) where
  serial : Serial
  /-- The open transaction that holds the version. -/
  holder : Option TxnId
  stamp : ReadStamp
  beginTs : Timestamp
  endTs : Timestamp
  committed : Bool
  value : V
deriving DecidableEq, Repr

namespace Version

/-- A pending version. -/
def pending (serial : Serial) (holder : Option TxnId) (value : V) : Version V :=
  ⟨serial, holder, .fresh, 0, infinity, false, value⟩

/-- Whether the version is committed at or below `ts`. -/
def isSettledBy (v : Version V) (ts : Timestamp) : Bool :=
  v.committed && v.beginTs ≤ ts

/-- Whether an open transaction other than `txn` holds the version. -/
def isHeldAgainst (v : Version V) (txn : TxnId) : Bool :=
  match v.holder with
  | none => false
  | some holder => holder ≠ txn

/-- Hold the version for `txn`, unless it is held already. -/
def hold? (v : Version V) (txn : TxnId) : Option (Version V) :=
  match v.holder with
  | none => some { v with holder := some txn }
  | some _ => none

def release (v : Version V) : Version V :=
  { v with holder := none }

end Version

/-- A pending version and the version it is to supersede. -/
structure Installed where
  node : Serial
  prior : Option Serial
deriving DecidableEq, Repr

/-- The versions of a key, newest first, and the serial number of the next one. -/
structure Chain (V : Type) where
  versions : List (Version V)
  nextSerial : Serial
deriving DecidableEq, Repr

/-- What a reader finds in a chain. -/
inductive Sight (V : Type) where
  | value (v : V)
  /-- No version is visible. -/
  | absent
  /-- Another transaction is about to supersede the visible version. -/
  | held
  /-- The version found was superseded before the reader's timestamp, so that the reader would
      have to look again. -/
  | superseded
deriving DecidableEq, Repr

/-- What a reader is told. Below the end of time adjoining intervals leave no room for a superseded
    version. At the end of time every version counts as superseded: the reader would look again for
    ever, and is told here that there is none. -/
def Sight.answer : Sight V → Except Refusal V
  | .value v => .ok v
  | .absent | .superseded => .error .absent
  | .held => .error .held

namespace Chain

/-- The chain of a key that was never written. -/
def empty : Chain V := ⟨[], 0⟩

/-- The number of versions, pending or not. -/
def length (c : Chain V) : Nat :=
  c.versions.length

/-! ### Reading -/

/-- What a settled version shows to `reader` at `ts`. -/
def sightOf (v : Version V) (ts : Timestamp) (reader : TxnId) : Sight V :=
  if v.isHeldAgainst reader then .held
  else if v.endTs ≤ ts then .superseded
  else .value v.value

/-- Find the newest version settled by `ts` and record the read on it, whether or not it can be
    shown. -/
def lookIn (ts : Timestamp) (reader : TxnId) : List (Version V) → Sight V × List (Version V)
  | [] => (.absent, [])
  | v :: older =>
    if v.isSettledBy ts then
      (sightOf v ts reader, { v with stamp := v.stamp.observe ts reader } :: older)
    else
      let (sight, older) := lookIn ts reader older
      (sight, v :: older)

/-- What `reader` finds at `ts`, and the chain with the read recorded. -/
def look (c : Chain V) (ts : Timestamp) (reader : TxnId) : Sight V × Chain V :=
  let (sight, versions) := lookIn ts reader c.versions
  (sight, { c with versions })

/-! ### Writing -/

/-- Try to put a pending version of `txn`, which reads at `readTs`, in front. The version that is
    current then is held first, which fails if it is held already. It is released again if it turns
    out to be newer than `readTs` or read in a way that excludes the writer. -/
def attempt (c : Chain V) (txn : TxnId) (readTs : Timestamp) (value : V) :
    Except Refusal Installed × Chain V :=
  let node : Version V := .pending c.nextSerial (some txn) value
  match c.versions with
  | [] => (.ok ⟨node.serial, none⟩, ⟨[node], c.nextSerial + 1⟩)
  | head :: older =>
    match head.hold? txn with
    | none => (.error .contended, c)
    | some held =>
      if held.stamp.admits readTs txn && held.beginTs ≤ readTs then
        (.ok ⟨node.serial, some held.serial⟩, ⟨node :: held :: older, c.nextSerial + 1⟩)
      else (.error .conflict, { c with versions := held.release :: older })

/-- The chain with a pending version of `txn` in front. A refused attempt leaves the chain as it was
    (`attempt_refused`), so nothing of it is kept. -/
def install (c : Chain V) (txn : TxnId) (readTs : Timestamp) (value : V) :
    Except Refusal (Chain V × Installed) :=
  match c.attempt txn readTs value with
  | (.ok installed, c) => .ok (c, installed)
  | (.error e, _) => .error e

/-- The versions from the one called `serial` on. -/
def since (c : Chain V) : Option Serial → List (Version V)
  | none => []
  | some serial => c.versions.dropWhile fun v => v.serial ≠ serial

/-- Whether the version called `serial` is the newest. -/
def isNewest (c : Chain V) (serial : Serial) : Bool :=
  match c.versions with
  | [] => false
  | head :: _ => head.serial = serial

/-- Exchange a pending version for one with another value. It must still be the newest. -/
def supersede (c : Chain V) (i : Installed) (value : V) : Option (Chain V × Installed) :=
  match c.versions with
  | [] => none
  | head :: _ =>
    if head.serial = i.node then
      let node : Version V := .pending c.nextSerial head.holder value
      some (⟨node :: c.since i.prior, c.nextSerial + 1⟩, { i with node := node.serial })
    else none

/-- What committing at `ts` makes of a version: the pending one becomes current from `ts` on, the
    one before it ends there, and both are released. -/
def commitVersion (i : Installed) (ts : Timestamp) (v : Version V) : Version V :=
  if v.serial = i.node then
    { v with beginTs := ts, endTs := infinity, committed := true, holder := none }
  else if some v.serial = i.prior then { v with endTs := ts, holder := none }
  else v

/-- Make a pending version current as of `ts`. -/
def commit (c : Chain V) (i : Installed) (ts : Timestamp) : Chain V :=
  { c with versions := c.versions.map (commitVersion i ts) }

/-- What aborting makes of a version that stays. -/
def abortVersion (i : Installed) (v : Version V) : Version V :=
  if some v.serial = i.prior then v.release else v

/-- Take a pending version out again. It must still be the newest. -/
def abort? (c : Chain V) (i : Installed) : Option (Chain V) :=
  if c.isNewest i.node then
    some { c with versions := (c.since i.prior).map (abortVersion i) }
  else none

/-- Take a pending version out again, if it is the newest. -/
def abort (c : Chain V) (i : Installed) : Chain V :=
  (c.abort? i).getD c

/-! ### Trimming -/

/-- The versions up to the newest one settled by `safepoint`, and how many are older. -/
def cutIn (safepoint : Timestamp) : List (Version V) → List (Version V) × Nat
  | [] => ([], 0)
  | v :: older =>
    if v.isSettledBy safepoint then ([v], older.length)
    else
      let (kept, cut) := cutIn safepoint older
      (v :: kept, cut)

/-- Cut off every version older than the newest one settled by `safepoint`: nobody who reads at or
    above the safepoint ever gets past that one. -/
def trim (c : Chain V) (safepoint : Timestamp) : Chain V × Nat :=
  let (versions, cut) := cutIn safepoint c.versions
  ({ c with versions }, cut)

end Chain

end RadixStore
