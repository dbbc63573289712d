import RadixStore.Node.Kind
import RadixStore.Node.Flat
import RadixStore.Node.Indexed
import RadixStore.Node.Direct

/-!
# Node bodies

The children of an inner node are an ordered map from bytes, and all four kinds of bodies answer the
same operations. The two small kinds are flat, the third is indexed, the largest is direct.
-/

namespace RadixStore

/-- The children of an inner node, in one of the four encodings. -/
inductive Body (α : Type) where
  | node4 (children : Flat α)
  | node16 (children : Flat α)
  | node48 (children : Indexed α)
  | node256 (children : Direct α)
deriving DecidableEq, Repr

namespace Body

variable {α : Type}

def kind : Body α → Kind
  | .node4 _ => .node4
  | .node16 _ => .node16
  | .node48 _ => .node48
  | .node256 _ => .node256

/-- A body without children. -/
def empty : Kind → Body α
  | .node4 => .node4 .empty
  | .node16 => .node16 .empty
  | .node48 => .node48 .empty
  | .node256 => .node256 .empty

/-- How many children the body holds. -/
def count : Body α → Nat
  | .node4 f | .node16 f => f.count
  | .node48 x => x.count
  | .node256 d => d.count

def isFull (body : Body α) : Bool :=
  body.kind.capacity ≤ body.count

/-- The child under `b`. -/
def child? (body : Body α) (b : UInt8) : Option α :=
  match body with
  | .node4 f | .node16 f => f.child? b
  | .node48 x => x.child? b
  | .node256 d => d.child? b

/-- The first child at or after `b`. -/
def childFrom (body : Body α) (b : UInt8) : Option (UInt8 × α) :=
  match body with
  | .node4 f | .node16 f => f.childFrom b
  | .node48 x => x.childFrom b
  | .node256 d => d.childFrom b

/-- The last child at or before `b`. -/
def childUpTo (body : Body α) (b : UInt8) : Option (UInt8 × α) :=
  match body with
  | .node4 f | .node16 f => f.childUpTo b
  | .node48 x => x.childUpTo b
  | .node256 d => d.childUpTo b

/-- Add a child under a byte that has none, if there is room. -/
def insert? (body : Body α) (b : UInt8) (c : α) : Option (Body α) :=
  match body with
  | .node4 f => if f.count < Kind.node4.capacity then some (.node4 (f.insert b c)) else none
  | .node16 f => if f.count < Kind.node16.capacity then some (.node16 (f.insert b c)) else none
  | .node48 x => (x.insert? b c).map .node48
  | .node256 d => some (.node256 (d.insert b c))

/-- Exchange the child under `b`; without one nothing changes. -/
def replace (body : Body α) (b : UInt8) (c : α) : Body α :=
  match body with
  | .node4 f => .node4 (f.replace b c)
  | .node16 f => .node16 (f.replace b c)
  | .node48 x => .node48 (x.replace b c)
  | .node256 d => .node256 (d.replace b c)

/-- Take the child under `b` out. -/
def erase (body : Body α) (b : UInt8) : Body α :=
  match body with
  | .node4 f => .node4 (f.erase b)
  | .node16 f => .node16 (f.erase b)
  | .node48 x => .node48 (x.erase b)
  | .node256 d => .node256 (d.erase b)

/-- The children, ascending. -/
def toList : Body α → List (UInt8 × α)
  | .node4 f | .node16 f => f.toList
  | .node48 x => x.toList
  | .node256 d => d.toList

/-- Add all of `children`, if there is room. -/
def insertAll? (body : Body α) (children : List (UInt8 × α)) : Option (Body α) :=
  children.foldlM (fun body e => body.insert? e.1 e.2) body

/-! ### Everything found is in the list -/

theorem mem_of_childFrom {body : Body α} {b : UInt8} {p : UInt8 × α}
    (h : body.childFrom b = some p) : p ∈ body.toList := by
  cases body with
  | node4 f | node16 f => exact Flat.mem_of_childFrom h
  | node48 x => exact Indexed.mem_of_childFrom h
  | node256 d => exact Direct.mem_of_childFrom h

theorem mem_of_childUpTo {body : Body α} {b : UInt8} {p : UInt8 × α}
    (h : body.childUpTo b = some p) : p ∈ body.toList := by
  cases body with
  | node4 f | node16 f => exact Flat.mem_of_childUpTo h
  | node48 x => exact Indexed.mem_of_childUpTo h
  | node256 d => exact Direct.mem_of_childUpTo h

theorem sizeOf_lt_of_mem [SizeOf α] {body : Body α} {p : UInt8 × α} (h : p ∈ body.toList) :
    sizeOf p.2 < sizeOf body := by
  cases body with
  | node4 f =>
    have hlt := Flat.sizeOf_lt_of_mem (f := f) h
    simp only [Body.node4.sizeOf_spec]
    omega
  | node16 f =>
    have hlt := Flat.sizeOf_lt_of_mem (f := f) h
    simp only [Body.node16.sizeOf_spec]
    omega
  | node48 x =>
    have hlt := Indexed.sizeOf_lt_of_mem (x := x) h
    simp only [Body.node48.sizeOf_spec]
    omega
  | node256 d =>
    have hlt := Direct.sizeOf_lt_of_mem (d := d) h
    simp only [Body.node256.sizeOf_spec]
    omega

end Body

end RadixStore
