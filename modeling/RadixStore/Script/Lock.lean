import RadixStore.Lock.Basic
import RadixStore.Names

/-!
# Scripts over version locks

A script works on any number of locks and keeps the snapshots and guards it gets under names. A
snapshot may be tried on another lock than the one it came from. A guard is live from the step that
grants it to the step that gives it up; whoever would have to wait for it is told so and does not
wait.
-/

namespace RadixStore.LockScript

/-- What a script has in hand: the locks, the snapshots taken and, of each live guard, the lock it
    holds. -/
structure State where
  locks : List VersionLock
  snapshots : Bindings String Snapshot
  guards : Bindings String Nat
deriving Repr

/-- One step of a script; `i` is the lock it is about. -/
inductive Op where
  | read (i : Nat) (snapshot : String)
  | readLive (i : Nat) (snapshot : String)
  | validate (i : Nat) (snapshot : String)
  | upgrade (i : Nat) (guard snapshot : String)
  | write (i : Nat) (guard : String)
  | release (i : Nat) (guard : String)
  | retire (i : Nat) (guard : String)
  | same (i : Nat) (snapshot other : String)
  | inspect (i : Nat)
deriving Repr

/-- The lock that a step is about. -/
def Op.lock : Op → Nat
  | .read i _ | .readLive i _ | .validate i _ | .upgrade i _ _ | .write i _ | .release i _
  | .retire i _ | .same i _ _ | .inspect i => i

/-- What a step answers. -/
inductive Answer where
  | snapshot (s : Snapshot)
  | valid
  | guard (held : VersionLock)
  | done
  | same (b : Bool)
  | lock (l : VersionLock)
  /-- The race is lost: the word has changed, or the node is unlinked. -/
  | restart
  /-- A live guard is in the way. -/
  | wouldBlock
  /-- The script names a lock, a snapshot or a guard that there is not. -/
  | unknownName
deriving DecidableEq, Repr

/-- `n` locks on which nothing has happened. -/
def start (n : Nat) : State :=
  ⟨List.replicate n .fresh, [], []⟩

namespace State

/-- How an attempt that came to nothing is answered. -/
def refusal : Fault → Answer
  | .held => .wouldBlock
  | _ => .restart

/-- End the write section of `guard`, if it is live, in the way `ending` says. -/
def finish (st : State) (guard : String) (ending : VersionLock → VersionLock) : State :=
  match st.guards.find guard with
  | none => st
  | some i => { st with locks := st.locks.modify i ending, guards := st.guards.unbind guard }

/-- Keep the guard just granted on lock `i`, now in the state `held`. A guard of the same name
    that was still live is given up. -/
def grant (st : State) (i : Nat) (guard : String) (held : VersionLock) : State :=
  let st := st.finish guard .release
  { st with locks := st.locks.set i held, guards := st.guards.bind guard i }

/-- One step on a lock `l` that exists. -/
def stepOn (st : State) (l : VersionLock) : Op → State × Answer
  | .read _ name =>
    match l.snapshot with
    | .ok s => ({ st with snapshots := st.snapshots.bind name s }, .snapshot s)
    | .error e => (st, refusal e)
  | .readLive _ name =>
    match l.liveSnapshot with
    | .ok s => ({ st with snapshots := st.snapshots.bind name s }, .snapshot s)
    | .error e => (st, refusal e)
  | .validate _ name =>
    match st.snapshots.find name with
    | none => (st, .unknownName)
    | some s =>
      match l.validate s with
      | .ok () => (st, .valid)
      | .error e => (st, refusal e)
  | .upgrade i guard name =>
    match st.snapshots.find name with
    | none => (st, .unknownName)
    | some s =>
      match l.upgrade s with
      | .ok held => (st.grant i guard held, .guard held)
      | .error e => (st, refusal e)
  | .write i guard =>
    match l.acquire with
    | .ok held => (st.grant i guard held, .guard held)
    | .error e => (st, refusal e)
  | .release _ guard =>
    match st.guards.find guard with
    | none => (st, .unknownName)
    | some _ => (st.finish guard .release, .done)
  | .retire _ guard =>
    match st.guards.find guard with
    | none => (st, .unknownName)
    | some _ => (st.finish guard .retire, .done)
  | .same _ a b => (st, .same (st.snapshots.find a = st.snapshots.find b))
  | .inspect _ => (st, .lock l)

/-- One step. -/
def step (st : State) (op : Op) : State × Answer :=
  match st.locks[op.lock]? with
  | none => (st, .unknownName)
  | some l => st.stepOn l op

end State

/-- The state after a script. -/
def exec (st : State) (ops : List Op) : State :=
  ops.foldl (fun st op => (st.step op).1) st

/-- A whole script: each step with its answer and the lock it was about as the step left it. -/
def run : State → List Op → List (Answer × Option VersionLock)
  | _, [] => []
  | st, op :: ops =>
    let (st, answer) := st.step op
    (answer, st.locks[op.lock]?) :: run st ops

end RadixStore.LockScript
