import RadixStore.Counters
import RadixStore.Cursor.Next
import RadixStore.Names
import RadixStore.Tree.Insert
import RadixStore.Tree.Remove
import RadixStore.Tree.Shape

/-!
# Scripts over a tree

A script works on one tree and on any number of cursors over it, which it keeps open under names
while it changes the tree. After every step that may change the tree it measures it.
-/

namespace RadixStore.TreeScript

variable {V : Type}

/-- What a script has in hand. -/
structure State (V : Type) where
  tree : Tree V
  counters : Counters
  cursors : Bindings String Cursor

/-- One step of a script. -/
inductive Op (V : Type) where
  | insert (key : Key) (value : V)
  | getOrInsert (key : Key) (value : V)
  | remove (key : Key)
  | get (key : Key)
  | scan (lower upper : Option Key) (dir : Direction) (limit : Option Nat)
  | openCursor (name : String) (lower upper : Option Key)
  | reverse (name : String)
  | next (name : String) (count : Nat)
  | close (name : String)
  | inspectCursor (name : String)
  | size
  | shape
  | counters
  | resetCounters
  | inspect
deriving Repr

/-- The tree as measured after a step. -/
structure Measure where
  size : Nat
  shape : Shape
  counters : Counters
deriving DecidableEq, Repr

/-- What a step answers. -/
inductive Answer (V : Type) where
  | wrote (old : Option V) (after : Measure)
  | ensured (value : V) (made : Bool) (after : Measure)
  | value (found : Option V)
  | items (leaves : List (Leaf V))
  | stepped (items : List (Option (Leaf V)))
  | cursor (c : Cursor)
  | size (n : Nat) (isEmpty : Bool)
  | shape (s : Shape)
  | counters (c : Counters)
  | text (s : String)
  | done
  /-- There is no cursor of that name. -/
  | unknownName
deriving DecidableEq, Repr

/-- An empty tree, nothing counted, no cursor open. -/
def start : State V :=
  ⟨.empty, .zero, []⟩

namespace State

def measure (st : State V) : Measure :=
  ⟨st.tree.size, st.tree.shape, st.counters⟩

/-- The state after an operation on the tree. -/
def write (st : State V) (w : Written V) : State V :=
  { st with tree := w.tree, counters := st.counters.written w }

/-- One step. -/
def step (st : State V) : Op V → State V × Answer V
  | .insert key value =>
    let w := st.tree.insert key value
    let st := st.write w
    (st, .wrote w.old st.measure)
  | .getOrInsert key value =>
    let e := st.tree.getOrInsert key fun _ => value
    let st := st.write e.written
    (st, .ensured e.value e.made st.measure)
  | .remove key =>
    let w := st.tree.remove key
    let st := st.write w
    (st, .wrote w.old st.measure)
  | .get key =>
    ({ st with counters := st.counters.faulted (st.tree.searchFault? key) },
      .value (st.tree.get? key))
  | .scan lower upper dir limit => (st, .items (st.tree.scan lower upper dir limit))
  | .openCursor name lower upper =>
    ({ st with cursors := st.cursors.bind name (.between lower upper) }, .done)
  | .reverse name =>
    match st.cursors.find name with
    | none => (st, .unknownName)
    | some c => ({ st with cursors := st.cursors.bind name c.reverse }, .done)
  | .next name count =>
    match st.cursors.find name with
    | none => (st, .unknownName)
    | some c =>
      let (items, c, recoveries) := c.nexts st.tree count
      ({ st with
          cursors := st.cursors.bind name c
          counters := st.counters.recovered recoveries }, .stepped items)
  | .close name => ({ st with cursors := st.cursors.unbind name }, .done)
  | .inspectCursor name =>
    match st.cursors.find name with
    | none => (st, .unknownName)
    | some c => (st, .cursor c)
  | .size => (st, .size st.tree.size st.tree.isEmpty)
  | .shape => (st, .shape st.tree.shape)
  | .counters => (st, .counters st.counters)
  | .resetCounters => ({ st with counters := .zero }, .done)
  | .inspect => (st, .text st.tree.text)

end State

/-- The state after a script. -/
def exec (st : State V) (ops : List (Op V)) : State V :=
  ops.foldl (fun st op => (st.step op).1) st

/-- The answers of a script. -/
def run : State V → List (Op V) → List (Answer V)
  | _, [] => []
  | st, op :: ops =>
    let (st, answer) := st.step op
    answer :: run st ops

end RadixStore.TreeScript
