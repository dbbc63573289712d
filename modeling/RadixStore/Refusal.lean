/-!
# Refusals

Why a read, a write or a commit of a transaction did not take effect. Two of the causes clear when
another transaction ends, so that a retry may succeed; the others stay.
-/

namespace RadixStore

/-- The causes for which a transaction is refused something. -/
inductive Refusal where
  /-- No version of the key is visible at the timestamp of the transaction. -/
  | absent
  /-- The visible version is to be superseded by another open transaction. -/
  | held
  /-- Another open transaction is writing the key. -/
  | contended
  /-- The current version was read or committed too late for this writer. -/
  | conflict
  /-- The transaction was opened for reading only. -/
  | readOnly
  /-- The commit timestamp lies below the one at which the transaction reads. -/
  | beforeRead
deriving DecidableEq, Repr

namespace Refusal

/-- Whether a retry by the same transaction may succeed later. -/
def isContention : Refusal → Bool
  | .held | .contended => true
  | _ => false

def message : Refusal → String
  | .absent => "key does not exist at this read timestamp"
  | .held => "another transaction holds the write lock on this key"
  | .contended => "failed to acquire the write lock on this key"
  | .conflict => "write conflicts with a read or commit at a later timestamp"
  | .readOnly => "transaction is read-only"
  | .beforeRead => "commit timestamp precedes the read timestamp"

/-- The name of a cause. -/
def name : Refusal → String
  | .absent => "KeyNotExists"
  | .held => "AnotherTxnHeldWLock"
  | .contended => "FailedToAcquireWLock"
  | .conflict => "WriteConflicts"
  | .readOnly => "ReadOnly"
  | .beforeRead => "CommitBeforeRead"

/-- All causes. -/
def all : List Refusal :=
  [.absent, .held, .contended, .conflict, .readOnly, .beforeRead]

/-- The cause of that name. -/
def ofName? (s : String) : Option Refusal :=
  all.find? fun e => e.name = s

end Refusal

end RadixStore
