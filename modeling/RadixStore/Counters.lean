import RadixStore.Tree.Basic

/-!
# Counters

What has been done so far behind the scenes: attempts that came to nothing, the rearrangements of
the tree, the times a cursor had to find its way again, and the versions that were reclaimed. A
counter only ever goes up, until all are set back to zero together.
-/

namespace RadixStore

/-- The counters. -/
structure Counters where
  restarts : Nat
  grows : Nat
  shrinks : Nat
  collapses : Nat
  stemSplits : Nat
  recoveries : Nat
  reclaimed : Nat
deriving DecidableEq, Repr

namespace Counters

def zero : Counters := ⟨0, 0, 0, 0, 0, 0, 0⟩

/-- Count a rearrangement. -/
def reshaped (c : Counters) : Option Reshape → Counters
  | none => c
  | some .grow => { c with grows := c.grows + 1 }
  | some .shrink => { c with shrinks := c.shrinks + 1 }
  | some .collapse => { c with collapses := c.collapses + 1 }
  | some .stemSplit => { c with stemSplits := c.stemSplits + 1 }

/-- Count an attempt that came to nothing. -/
def faulted (c : Counters) : Option Fault → Counters
  | none => c
  | some _ => { c with restarts := c.restarts + 1 }

/-- Count what an operation on a tree did. -/
def written {V : Type} (c : Counters) (w : Written V) : Counters :=
  (c.reshaped w.reshape).faulted w.fault

/-- Count `n` recoveries of a cursor. -/
def recovered (c : Counters) (n : Nat) : Counters :=
  { c with recoveries := c.recoveries + n }

def text (c : Counters) : String :=
  Text.record "DebugCounters"
    [("restarts", toString c.restarts), ("grows", toString c.grows),
     ("shrinks", toString c.shrinks), ("collapses", toString c.collapses),
     ("prefix_splits", toString c.stemSplits), ("iter_recoveries", toString c.recoveries),
     ("gc_reclaimed", toString c.reclaimed)]

end Counters

end RadixStore
