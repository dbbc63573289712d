import RadixStore.Store.System

/-!
# Scripts over stores

A script is a list of steps on a system of stores. Besides the single actions there are scans that
go on until they are exhausted or have yielded enough; after each item such a scan may let other
steps come in between, scans included.
-/

namespace RadixStore.StoreScript

variable {V : Type}

/-- One step of a script. -/
inductive Op (V : Type) where
  | action (a : Action V)
  /-- A commit that calls back when it is done. -/
  | commitWith (txn : String) (ts : Timestamp)
  | scan (txn : String) (lower upper : Option Key) (dir : Direction) (limit : Option Nat)
  /-- A scan that lets the first list of steps come in after its first item, and so on. -/
  | scanAmid (txn : String) (lower upper : Option Key) (dir : Direction) (limit : Option Nat)
      (between : List (List (Op V)))
  | inspectTxn (txn : String)
  | info (i : Nat)
  | inspect (i : Nat)

/-- The figures of a store after a step. -/
structure Figures where
  size : Nat
  activeCount : Nat
  oldest : Option Timestamp
  watermark : Timestamp
  safepoint : Timestamp
  nextId : TxnId
  reclaimed : Nat
deriving DecidableEq, Repr

/-- What a step answers, and the figures of the store that it was about. -/
inductive Reply (V : Type) where
  | action (answer : Answer V) (after : Option Figures)
  /-- A commit, and what its callback was told: the verdict and the open transactions by then. -/
  | notified (verdict : Verdict) (calls : List (Verdict × Nat)) (after : Option Figures)
  | scanned (items : List (ScanItem V)) (after : Option Figures)
  | scannedAmid (items : List (ScanItem V)) (between : List (List (Reply V))) (text : String)
      (after : Option Figures)
  | info (config : Config) (isEmpty : Bool) (after : Option Figures)
  | text (s : String) (after : Option Figures)
  /-- There is no such store or transaction. -/
  | unknown

/-- The figures of store `i`. -/
def figures (sys : System V) (i : Nat) : Option Figures :=
  match sys.stores[i]?, sys.source? i with
  | some s, some a =>
    some ⟨s.size, s.active.count, s.active.oldest?, s.watermark, s.safepoint, a.next,
      sys.reclaimed⟩
  | _, _ => none

/-- A single action as a step. -/
def doAction (sys : System V) (a : Action V) : System V × Reply V :=
  match sys.target? a with
  | none => (sys, .unknown)
  | some i =>
    let (sys, answer) := sys.act a
    (sys, .action answer (figures sys i))

/-- Commit, and have the callback note what it is told and how many transactions are open by then. -/
def doCommitWith (sys : System V) (name : String) (ts : Timestamp) : System V × Reply V :=
  match sys.txns.find name with
  | none => (sys, .unknown)
  | some t =>
    match sys.commitWith name ts fun verdict s => (verdict, s.active.count) with
    | (sys, none) => (sys, .unknown)
    | (sys, some (verdict, call)) => (sys, .notified verdict [call] (figures sys t.store))

/-- Say something about store `i`. -/
def describe (sys : System V) (i : Nat) (f : Store V → Option Figures → Reply V) :
    System V × Reply V :=
  match sys.stores[i]? with
  | none => (sys, .unknown)
  | some s => (sys, f s (figures sys i))

/-- The next item of scan `n`. -/
def nextItem (sys : System V) (n : Nat) : System V × Option (ScanItem V) :=
  match sys.act (.nextItem n) with
  | (sys, .item item) => (sys, item)
  | (sys, _) => (sys, none)

/-- The next items of scan `n`, at most `limit`. -/
def drain (n : Nat) : Nat → System V → System V × List (ScanItem V)
  | 0, sys => (sys, [])
  | limit + 1, sys =>
    match nextItem sys n with
    | (sys, none) => (sys, [])
    | (sys, some item) =>
      let (sys, items) := drain n limit sys
      (sys, item :: items)

/-- How many items a scan of store `i` may yield: up to its limit, or more than there are keys. -/
def budget (sys : System V) (i : Nat) (limit : Option Nat) : Nat :=
  limit.getD ((sys.stores[i]?.map Store.size).getD 0 + 1)

/-- The text of scan `n` of a transaction. -/
def scanText (sys : System V) (n : Nat) (t : OpenTxn V) : String :=
  match sys.scans.find n with
  | none => ""
  | some scan => scan.cursor.scanText t.txn.id

/-- Open a scan, go on with it as `proceed` says, and close it. -/
def withScan (sys : System V) (name : String) (lower upper : Option Key) (dir : Direction)
    (proceed : OpenTxn V → Nat → System V → System V × (Option Figures → Reply V)) :
    System V × Reply V :=
  match sys.txns.find name with
  | none => (sys, .unknown)
  | some t =>
    let n := sys.nextScan
    let (sys, _) := sys.act (.openScan name lower upper dir)
    let (sys, reply) := proceed t n sys
    let (sys, _) := sys.act (.closeScan n)
    (sys, reply (figures sys t.store))

mutual

/-- One step. -/
def step (sys : System V) : Op V → System V × Reply V
  | .action a => doAction sys a
  | .commitWith name ts => doCommitWith sys name ts
  | .scan name lower upper dir limit =>
    withScan sys name lower upper dir fun t n sys =>
      let (sys, items) := drain n (budget sys t.store limit) sys
      (sys, .scanned items)
  | .scanAmid name lower upper dir limit between =>
    withScan sys name lower upper dir fun t n sys =>
      let (sys, items, replies) := scan n t.store limit sys between
      (sys, .scannedAmid items replies (scanText sys n t))
  | .inspectTxn name =>
    match sys.txns.find name with
    | none => (sys, .unknown)
    | some t => (sys, .text t.txn.text (figures sys t.store))
  | .info i => describe sys i fun s after => .info s.config s.isEmpty after
  | .inspect i => describe sys i fun s after => .text s.text after

/-- One step after the other. -/
def steps (sys : System V) : List (Op V) → System V × List (Reply V)
  | [] => (sys, [])
  | op :: ops =>
    let (sys, reply) := step sys op
    let (sys, replies) := steps sys ops
    (sys, reply :: replies)

/-- Go on with scan `n` of store `i`, at most `limit` items, and after each item do the next list
    of steps. -/
def scan (n i : Nat) (limit : Option Nat) (sys : System V) :
    List (List (Op V)) → System V × List (ScanItem V) × List (List (Reply V))
  | [] =>
    let (sys, items) := drain n (budget sys i limit) sys
    (sys, items, items.map fun _ => [])
  | ops :: between =>
    if limit = some 0 then (sys, [], [])
    else
      match nextItem sys n with
      | (sys, none) => (sys, [], [])
      | (sys, some item) =>
        let (sys, replies) := steps sys ops
        let (sys, items, rest) := scan n i (limit.map (· - 1)) sys between
        (sys, item :: items, replies :: rest)

end

/-- The replies of a script. -/
def run (configs : List Config) (shared : Bool) (ops : List (Op V)) : List (Reply V) :=
  (steps (System.start configs shared) ops).2

end RadixStore.StoreScript
