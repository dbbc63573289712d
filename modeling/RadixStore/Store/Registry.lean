import RadixStore.Chain.Stamp

/-!
# Open transactions

How many transactions are open at each read timestamp. Timestamps are kept in ascending order, and
one at which no transaction is open is not kept at all, so the oldest is in front.
-/

namespace RadixStore

/-- The read timestamps of open transactions and how often each occurs, ascending. -/
structure Registry where
  counts : List (Timestamp × Nat)
deriving DecidableEq, Repr

namespace Registry

def empty : Registry := ⟨[]⟩

/-- One more transaction at `ts`. -/
def enterIn (ts : Timestamp) : List (Timestamp × Nat) → List (Timestamp × Nat)
  | [] => [(ts, 1)]
  | e :: es =>
    if ts < e.1 then (ts, 1) :: e :: es
    else if ts = e.1 then (ts, e.2 + 1) :: es
    else e :: enterIn ts es

/-- One transaction less at `ts`. -/
def leaveIn (ts : Timestamp) : List (Timestamp × Nat) → List (Timestamp × Nat)
  | [] => []
  | e :: es =>
    if ts = e.1 then
      if e.2 ≤ 1 then es else (ts, e.2 - 1) :: es
    else e :: leaveIn ts es

def enter (r : Registry) (ts : Timestamp) : Registry :=
  ⟨enterIn ts r.counts⟩

def leave (r : Registry) (ts : Timestamp) : Registry :=
  ⟨leaveIn ts r.counts⟩

/-- The lowest timestamp at which a transaction is open. -/
def oldest? (r : Registry) : Option Timestamp :=
  r.counts.head?.map Prod.fst

/-- How many transactions are open. -/
def count (r : Registry) : Nat :=
  r.counts.foldr (fun e n => e.2 + n) 0

end Registry

end RadixStore
