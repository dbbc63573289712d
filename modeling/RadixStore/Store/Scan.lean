import RadixStore.Cursor.Next
import RadixStore.Store.Txn

/-!
# Scans and sweeps

A scan goes through a range of keys as of the read timestamp of a transaction. Keys without a
visible version are passed over; a key whose visible version is held by another transaction shows
as an error, and the scan goes on after it. The store may change between one key and the next.

A sweep goes through all keys and trims their chains.
-/

namespace RadixStore

variable {V : Type}

/-! ### Scans -/

/-- What a scan shows of a key. -/
abbrev ScanItem (V : Type) := Except Refusal (Key × V)

/-- What asking a scan for the next key comes to. -/
structure ScanStep (V : Type) where
  item : Option (ScanItem V)
  cursor : Cursor
  store : Store V

namespace Store

/-- What `t` sees of a key that the cursor has come to: nothing if no version is visible. -/
def visit (s : Store V) (t : Txn V) (l : Leaf (Chain V)) : Option (ScanItem V) × Store V :=
  match t.pending? l.key with
  | some p => (some (.ok (l.key, p.value)), s)
  | none =>
    match s.lookAt t l.key l.value with
    | (.ok value, s) => (some (.ok (l.key, value)), s)
    | (.error .absent, s) => (none, s)
    | (.error e, s) => (some (.error e), s)

/-- Go on until a key shows, past at most `fuel` keys. -/
def scanUpTo (t : Txn V) : Nat → Store V → Cursor → ScanStep V
  | 0, s, c => ⟨none, c, s⟩
  | fuel + 1, s, c =>
    let step := c.next s.index
    match step.item with
    | none => ⟨none, step.cursor, s⟩
    | some l =>
      match s.visit t l with
      | (some item, s) => ⟨some item, step.cursor, s⟩
      | (none, s) => scanUpTo t fuel s step.cursor

/-- The next key that shows. The cursor yields no key twice, so it passes at most as many keys as
    there are before it comes to the end. -/
def scanNext (s : Store V) (t : Txn V) (c : Cursor) : ScanStep V :=
  scanUpTo t (s.size + 1) s c

end Store

/-- The text of a scan by the transaction called `txn`. -/
def Cursor.scanText (c : Cursor) (txn : TxnId) : String :=
  Text.openRecord "TxnIter" [("txn", toString txn), ("inner", c.text)]

/-! ### Sweeps -/

/-- What a sweep did. -/
structure SweepReport where
  /-- Chains visited. -/
  inspected : Nat
  /-- Chains that lost a version. -/
  pruned : Nat
  /-- Versions that were cut off. -/
  reclaimed : Nat
  /-- The safepoint against which the chains were trimmed. -/
  safepoint : Timestamp
deriving DecidableEq, Repr

namespace SweepReport

/-- The figures after one more chain, which lost `cut` versions. -/
def visited (g : SweepReport) (cut : Nat) : SweepReport :=
  { g with
    inspected := g.inspected + 1
    pruned := if 0 < cut then g.pruned + 1 else g.pruned
    reclaimed := g.reclaimed + cut }

end SweepReport

namespace Store

/-- Trim the chains of `keys` and keep count. -/
def sweepKeys (s : Store V) (g : SweepReport) (keys : List Key) : Store V × SweepReport :=
  keys.foldl (fun acc key =>
    let (s, cut) := acc.1.trimChain key g.safepoint
    (s, acc.2.visited cut)) (s, g)

/-- Trim every chain against the safepoint of this moment. -/
def gc (s : Store V) : Store V × SweepReport :=
  s.sweepKeys ⟨0, 0, 0, s.safepoint⟩ ((s.index.scan none none .forward none).map Leaf.key)

end Store

end RadixStore
