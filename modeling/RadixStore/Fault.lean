/-!
# Faults

An attempt on the tree takes locks and follows children without waiting for anybody. Whatever it
meets that it cannot trust ends it, and it leaves everything as it was. The causes are kept apart,
so that it can be said of each of them when it arises.
-/

namespace RadixStore

/-- The causes that end an attempt. -/
inductive Fault where
  /-- A writer holds the lock; whoever wants it would have to wait. -/
  | held
  /-- The node has been unlinked for good. -/
  | obsolete
  /-- The lock word is not the one that was seen before. -/
  | stale
  /-- The node is to be replaced, but nothing holds it. -/
  | rootless
  /-- An inner node without any leaf below it. -/
  | childless
  /-- A key ends before the depth up to which it has been followed. -/
  | shortKey
  /-- The body of a node has no room for another child. -/
  | full
deriving DecidableEq, Repr

/-- The text of a lost race, which is the only fault that a user of a lock gets to see. -/
def restartMessage : String :=
  "optimistic validation failed, restart required"

end RadixStore
