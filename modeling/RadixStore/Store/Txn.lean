import RadixStore.Store.Basic

/-!
# Transactions

A transaction reads the store as of one fixed timestamp, apart from its own writes, which it sees
at once. Its writes are pending versions at the head of the chains it wrote. They become current
together when it commits, and are taken out again when it ends in any other way.
-/

namespace RadixStore

variable {V : Type}

/-- Whether something took effect, or why not. -/
abbrev Verdict := Except Refusal Unit

/-- A write that is not committed yet: where it stands in the chain, and the value. -/
structure Pending (V : Type) where
  installed : Installed
  value : V
deriving DecidableEq, Repr

/-- An open transaction. -/
structure Txn (V : Type) where
  id : TxnId
  readTs : Timestamp
  /-- Whether it may write. -/
  update : Bool
  /-- Its pending writes; no key occurs twice. -/
  writes : List (Key × Pending V)
deriving DecidableEq, Repr

namespace Txn

/-- The transaction's own pending write of `key`. -/
def pending? (t : Txn V) (key : Key) : Option (Pending V) :=
  (t.writes.find? fun w => w.1 = key).map Prod.snd

/-- Remember a write, in place of an earlier one of the same key. -/
def stage (t : Txn V) (key : Key) (p : Pending V) : Txn V :=
  { t with writes := (key, p) :: t.writes.filter fun w => w.1 ≠ key }

def text (t : Txn V) : String :=
  Text.openRecord "Txn"
    [("id", toString t.id), ("read_ts", toString t.readTs), ("update", Text.flag t.update),
     ("pending", toString t.writes.length)]

end Txn

/-- A transaction, and whether it has ended. -/
structure Handle (V : Type) where
  txn : Txn V
  finished : Bool
deriving DecidableEq, Repr

namespace Store

/-! ### Opening -/

/-- Open a transaction that reads at `readTs`. -/
def openTxn (s : Store V) (id : TxnId) (readTs : Timestamp) (update : Bool) : Store V × Txn V :=
  ({ s with active := s.active.enter readTs }, ⟨id, readTs, update, []⟩)

/-! ### Reading and writing -/

/-- Read a chain as `t` does, and record the read. -/
def lookAt (s : Store V) (t : Txn V) (key : Key) (c : Chain V) : Except Refusal V × Store V :=
  let (sight, c) := c.look t.readTs t.id
  (sight.answer, s.updateChain key fun _ => c)

/-- Read `key`; the transaction's own pending write comes first. -/
def get (s : Store V) (t : Txn V) (key : Key) : Except Refusal V × Store V :=
  match t.pending? key with
  | some p => (.ok p.value, s)
  | none =>
    match s.chain? key with
    | none => (.error .absent, s)
    | some c => s.lookAt t key c

/-- What a write comes to. -/
structure SetResult (V : Type) where
  verdict : Verdict
  store : Store V
  txn : Txn V

/-- Write `key` once more. -/
def setAgain (s : Store V) (t : Txn V) (key : Key) (p : Pending V) (value : V) : SetResult V :=
  match (s.chain? key).bind fun c => c.supersede p.installed value with
  | none => ⟨.error .contended, s, t⟩
  | some (c, installed) =>
    ⟨.ok (), s.updateChain key fun _ => c, t.stage key ⟨installed, value⟩⟩

/-- Write `key` for the first time. A key that was never written gets a chain. -/
def setFirst (s : Store V) (t : Txn V) (key : Key) (value : V) : SetResult V :=
  let e := s.index.getOrInsert key fun _ => Chain.empty
  let s := { s with index := e.written.tree }
  match e.value.install t.id t.readTs value with
  | .error err => ⟨.error err, s, t⟩
  | .ok (c, installed) =>
    ⟨.ok (), s.updateChain key fun _ => c, t.stage key ⟨installed, value⟩⟩

/-- Write `value` to `key`, to be seen by others after the commit. -/
def set (s : Store V) (t : Txn V) (key : Key) (value : V) : SetResult V :=
  if t.update then
    match t.pending? key with
    | some p => s.setAgain t key p value
    | none => s.setFirst t key value
  else ⟨.error .readOnly, s, t⟩

/-! ### Ending

A transaction ends by a commit, by being discarded, or by going out of scope. It goes out of scope
after the other two as well, and must not give its registration up again then. -/

/-- The transaction is open no longer. -/
def closeTxn (s : Store V) (t : Txn V) : Store V :=
  { s with active := s.active.leave t.readTs }

/-- Give the registration of a transaction up, unless it has ended. -/
def finish (s : Store V) (h : Handle V) : Store V × Handle V :=
  if h.finished then (s, h) else (s.closeTxn h.txn, { h with finished := true })

/-- Make pending writes current as of `ts`. -/
def publish (s : Store V) (ts : Timestamp) (writes : List (Key × Pending V)) : Store V :=
  writes.foldl (fun s w => s.updateChain w.1 fun c => c.commit w.2.installed ts) s

/-- Take pending writes out again. -/
def withdraw (s : Store V) (writes : List (Key × Pending V)) : Store V :=
  writes.foldl (fun s w => s.updateChain w.1 fun c => c.abort w.2.installed) s

/-- Trim the chains of `keys`, and say how many versions went. -/
def trimChains (s : Store V) (safepoint : Timestamp) (keys : List Key) : Store V × Nat :=
  keys.foldl (fun acc key =>
    let (s, cut) := acc.1.trimChain key safepoint
    (s, acc.2 + cut)) (s, 0)

/-- Take the writes of a transaction out again, and end it. -/
def abort (s : Store V) (h : Handle V) : Store V × Handle V :=
  (s.withdraw h.txn.writes).finish { h with txn := { h.txn with writes := [] } }

/-- A transaction goes out of scope: it is aborted, unless it has ended. -/
def drop (s : Store V) (h : Handle V) : Store V :=
  if h.finished then s else (s.abort h).1

/-- Discard a transaction. -/
def discard (s : Store V) (t : Txn V) : Store V :=
  let (s, h) := s.abort ⟨t, false⟩
  s.drop h

/-- What a commit comes to. -/
structure CommitResult (V : Type) where
  verdict : Verdict
  store : Store V
  /-- The number of versions that were trimmed on the way. -/
  reclaimed : Nat

/-- Make the writes of a transaction current as of `ts`, and end it. Below its read timestamp it is
    aborted instead. -/
def conclude (s : Store V) (h : Handle V) (ts : Timestamp) : CommitResult V × Handle V :=
  if ts < h.txn.readTs then
    let (s, h) := s.abort h
    (⟨.error .beforeRead, s, 0⟩, h)
  else
    let writes := h.txn.writes
    let (s, h) := (s.publish ts writes).finish { h with txn := { h.txn with writes := [] } }
    if s.config.inlineGc then
      let (s, cut) := s.trimChains s.safepoint (writes.map Prod.fst)
      (⟨.ok (), s, cut⟩, h)
    else (⟨.ok (), s, 0⟩, h)

/-- Commit a transaction at `ts`, and then tell `callback` how it went. -/
def commitWith {α : Type} (s : Store V) (t : Txn V) (ts : Timestamp)
    (callback : Verdict → Store V → α) : CommitResult V × α :=
  let (r, h) := s.conclude ⟨t, false⟩ ts
  let told := callback r.verdict r.store
  ({ r with store := r.store.drop h }, told)

/-- Commit a transaction at `ts`. -/
def commit (s : Store V) (t : Txn V) (ts : Timestamp) : CommitResult V :=
  (s.commitWith t ts fun _ _ => ()).1

end Store

end RadixStore
