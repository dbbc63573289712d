import RadixStore.Names
import RadixStore.Store.Scan

/-!
# Systems of stores

Any number of stores, the sources from which they draw transaction identities, and everything that
is open on them: transactions, which have names, and scans, which are numbered in the order in
which they were opened. Any interleaving of actions on them is a run.

Stores draw their identities from a source each, or all from one.
-/

namespace RadixStore

variable {V : Type}

/-- An open transaction and the store that it belongs to. -/
structure OpenTxn (V : Type) where
  store : Nat
  txn : Txn V
deriving DecidableEq, Repr

/-- An open scan: the name of its transaction, and how far it has come. -/
structure OpenScan where
  txn : String
  cursor : Cursor
deriving DecidableEq, Repr

/-- Stores and what is open on them; `reclaimed` counts the versions trimmed in all of them. -/
structure System (V : Type) where
  stores : List (Store V)
  sources : List IdSource
  shared : Bool
  txns : Bindings String (OpenTxn V)
  scans : Bindings Nat OpenScan
  nextScan : Nat
  reclaimed : Nat

/-- What can be done in one go; `i` is a store, `txn` names a transaction, `n` numbers a scan. -/
inductive Action (V : Type) where
  | openTxn (i : Nat) (txn : String) (readTs : Timestamp) (update : Bool)
  | get (txn : String) (key : Key)
  | set (txn : String) (key : Key) (value : V)
  | commit (txn : String) (ts : Timestamp)
  | discard (txn : String)
  | openScan (txn : String) (lower upper : Option Key) (dir : Direction)
  | nextItem (n : Nat)
  | closeScan (n : Nat)
  | gc (i : Nat)
  | advanceWatermark (i : Nat) (ts : Timestamp)
  | takeId (i : Nat)
deriving DecidableEq, Repr

/-- What an action answers. -/
inductive Answer (V : Type) where
  | opened (id : TxnId) (readTs : Timestamp) (update : Bool) (pending : Nat)
  | value (v : Except Refusal V)
  | wrote (verdict : Verdict) (pending : Nat)
  | verdict (v : Verdict)
  | item (item : Option (ScanItem V))
  | swept (report : SweepReport)
  | id (id : TxnId)
  | done
  /-- There is no such store, transaction or scan. -/
  | unknown
deriving Repr

namespace System

/-- New stores with these configurations. -/
def start (configs : List Config) (shared : Bool) : System V :=
  ⟨configs.map .empty, configs.map fun _ => .fresh, shared, [], [], 0, 0⟩

/-! ### Stores and their sources -/

/-- The source from which store `i` draws. -/
def sourceOf (sys : System V) (i : Nat) : Nat :=
  if sys.shared then 0 else i

def source? (sys : System V) (i : Nat) : Option IdSource :=
  sys.sources[sys.sourceOf i]?

def setStore (sys : System V) (i : Nat) (s : Store V) : System V :=
  { sys with stores := sys.stores.set i s }

/-- Take an identity for store `i`. -/
def takeId (sys : System V) (i : Nat) : Option (TxnId × System V) :=
  (sys.source? i).map fun a =>
    let (id, a) := a.take
    (id, { sys with sources := sys.sources.set (sys.sourceOf i) a })

/-! ### Finding what an action is about -/

/-- Do something with store `i`. -/
def onStore (sys : System V) (i : Nat) (f : Store V → System V × Answer V) :
    System V × Answer V :=
  match sys.stores[i]? with
  | none => (sys, .unknown)
  | some s => f s

/-- Do something with the transaction called `name`. -/
def onTxn (sys : System V) (name : String) (f : OpenTxn V → Store V → System V × Answer V) :
    System V × Answer V :=
  match sys.txns.find name with
  | none => (sys, .unknown)
  | some t => sys.onStore t.store (f t)

/-- Do something with scan number `n`. -/
def onScan (sys : System V) (n : Nat)
    (f : OpenScan → OpenTxn V → Store V → System V × Answer V) : System V × Answer V :=
  match sys.scans.find n with
  | none => (sys, .unknown)
  | some scan => sys.onTxn scan.txn (f scan)

/-- The store that an action is about. -/
def target? (sys : System V) : Action V → Option Nat
  | .openTxn i _ _ _ | .gc i | .advanceWatermark i _ | .takeId i => some i
  | .get name _ | .set name _ _ | .commit name _ | .discard name | .openScan name _ _ _ =>
    (sys.txns.find name).map OpenTxn.store
  | .nextItem n | .closeScan n =>
    ((sys.scans.find n).bind fun scan => sys.txns.find scan.txn).map OpenTxn.store

/-! ### Acting -/

/-- Discard the transaction called `name`. -/
def discard (sys : System V) (name : String) : System V × Answer V :=
  sys.onTxn name fun t s =>
    ({ sys.setStore t.store (s.discard t.txn) with txns := sys.txns.unbind name }, .done)

/-- Open a transaction on store `i`. One of the same name that is still open goes out of scope, and is
    discarded by that. -/
def openTxn (sys : System V) (i : Nat) (name : String) (readTs : Timestamp) (update : Bool) :
    System V × Answer V :=
  let sys := (sys.discard name).1
  match sys.takeId i with
  | none => (sys, .unknown)
  | some (id, sys) =>
    sys.onStore i fun s =>
      let (s, t) := s.openTxn id readTs update
      ({ sys.setStore i s with txns := sys.txns.bind name ⟨i, t⟩ },
        .opened t.id t.readTs t.update t.writes.length)

/-- Commit the transaction called `name`, and then tell `callback` how it went. The verdict and what
    the callback makes of it are handed on. -/
def commitWith {α : Type} (sys : System V) (name : String) (ts : Timestamp)
    (callback : Verdict → Store V → α) : System V × Option (Verdict × α) :=
  match sys.txns.find name with
  | none => (sys, none)
  | some t =>
    match sys.stores[t.store]? with
    | none => (sys, none)
    | some s =>
      let (r, told) := s.commitWith t.txn ts callback
      ({ sys.setStore t.store r.store with
          txns := sys.txns.unbind name
          reclaimed := sys.reclaimed + r.reclaimed }, some (r.verdict, told))

/-- One action. -/
def act (sys : System V) : Action V → System V × Answer V
  | .openTxn i name readTs update => sys.openTxn i name readTs update
  | .get name key =>
    sys.onTxn name fun t s =>
      let (v, s) := s.get t.txn key
      (sys.setStore t.store s, .value v)
  | .set name key value =>
    sys.onTxn name fun t s =>
      let r := s.set t.txn key value
      ({ sys.setStore t.store r.store with txns := sys.txns.bind name { t with txn := r.txn } },
        .wrote r.verdict r.txn.writes.length)
  | .commit name ts =>
    sys.onTxn name fun t s =>
      let r := s.commit t.txn ts
      ({ sys.setStore t.store r.store with
          txns := sys.txns.unbind name
          reclaimed := sys.reclaimed + r.reclaimed }, .verdict r.verdict)
  | .discard name => sys.discard name
  | .openScan name lower upper dir =>
    sys.onTxn name fun _ _ =>
      ({ sys with
          scans := sys.scans.bind sys.nextScan ⟨name, .facing dir lower upper⟩
          nextScan := sys.nextScan + 1 }, .done)
  | .nextItem n =>
    sys.onScan n fun scan t s =>
      let step := s.scanNext t.txn scan.cursor
      ({ sys.setStore t.store step.store with
          scans := sys.scans.bind n { scan with cursor := step.cursor } }, .item step.item)
  | .closeScan n => ({ sys with scans := sys.scans.unbind n }, .done)
  | .gc i =>
    sys.onStore i fun s =>
      let (s, report) := s.gc
      ({ sys.setStore i s with reclaimed := sys.reclaimed + report.reclaimed }, .swept report)
  | .advanceWatermark i ts => sys.onStore i fun s => (sys.setStore i (s.advanceWatermark ts), .done)
  | .takeId i =>
    match sys.takeId i with
    | none => (sys, .unknown)
    | some (id, sys) => (sys, .id id)

/-! ### Runs -/

/-- The system after a run of actions. -/
def exec (sys : System V) (actions : List (Action V)) : System V :=
  actions.foldl (fun sys a => (sys.act a).1) sys

/-- The answers of a run. -/
def answers : System V → List (Action V) → List (Answer V)
  | _, [] => []
  | sys, a :: actions =>
    let (sys, answer) := sys.act a
    answer :: answers sys actions

end System

end RadixStore
