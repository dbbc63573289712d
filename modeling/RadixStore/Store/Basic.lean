import RadixStore.Chain.Basic
import RadixStore.Store.Config
import RadixStore.Store.Registry
import RadixStore.Tree.Insert

/-!
# The store

A store maps every key that was ever written to its version chain. It knows which transactions are
open and how low future ones may read: nobody promises to read below the watermark, so versions
that are superseded at or below both are garbage.
-/

namespace RadixStore

variable {V : Type}

/-- A transactional store. -/
structure Store (V : Type) where
  index : Tree (Chain V)
  active : Registry
  watermark : Timestamp
  config : Config

namespace Store

/-- A store in which nothing was ever written. -/
def empty (config : Config) : Store V :=
  ⟨.empty, .empty, 0, config⟩

/-- The number of keys that were ever written, committed or not. -/
def size (s : Store V) : Nat :=
  s.index.size

def isEmpty (s : Store V) : Bool :=
  s.index.isEmpty

/-- Promise that no transaction will be opened below `ts` from now on. The watermark never goes
    back. -/
def advanceWatermark (s : Store V) (ts : Timestamp) : Store V :=
  { s with watermark := max s.watermark ts }

/-- No open transaction reads below this, and no future one is to. -/
def safepoint (s : Store V) : Timestamp :=
  match s.active.oldest? with
  | none => s.watermark
  | some oldest => min oldest s.watermark

/-! ### Chains -/

/-- The chain of `key`. -/
def chain? (s : Store V) (key : Key) : Option (Chain V) :=
  s.index.get? key

/-- Apply `f` to the chain of `key`. -/
def updateChain (s : Store V) (key : Key) (f : Chain V → Chain V) : Store V :=
  { s with index := s.index.update key f }

/-! ### Trimming -/

/-- Trim the chain of `key`, if it is long enough to bother, and say how many versions went. -/
def trimChain (s : Store V) (key : Key) (safepoint : Timestamp) : Store V × Nat :=
  match s.chain? key with
  | none => (s, 0)
  | some c =>
    if c.length < s.config.gcMinChainLen then (s, 0)
    else
      let (c, cut) := c.trim safepoint
      (s.updateChain key fun _ => c, cut)

def text (s : Store V) : String :=
  Text.openRecord "Store"
    [("keys", toString s.size), ("active", Text.bindings s.active.counts),
     ("watermark", toString s.watermark), ("config", s.config.text)]

end Store

/-! ### Identities -/

/-- A source of transaction identities; no two that it hands out are the same. -/
structure IdSource where
  next : TxnId
deriving DecidableEq, Repr

namespace IdSource

/-- A source whose first identity is 1. -/
def fresh : IdSource := ⟨1⟩

/-- Hand out an identity. -/
def take (a : IdSource) : TxnId × IdSource :=
  (a.next, ⟨a.next + 1⟩)

end IdSource

end RadixStore
