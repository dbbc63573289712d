/-!
# Kinds of node bodies

The children of an inner node are stored in one of four sizes, always the smallest that holds them.
A body grows one size up when it is full and shrinks one size down as soon as the smaller size
suffices. The smallest never shrinks and the largest never grows.
-/

namespace RadixStore

/-- The four sizes of a node body. -/
inductive Kind where
  | node4
  | node16
  | node48
  | node256
deriving DecidableEq, Repr

namespace Kind

/-- The most children a body of this kind holds. -/
def capacity : Kind → Nat
  | node4 => 4
  | node16 => 16
  | node48 => 48
  | node256 => 256

/-- The next larger kind. -/
def grown : Kind → Kind
  | node4 => node16
  | node16 => node48
  | node48 | node256 => node256

/-- The next smaller kind. -/
def shrunk : Kind → Kind
  | node4 | node16 => node4
  | node48 => node16
  | node256 => node48

/-- Whether a body of this kind that holds `count` children is to be rebuilt one size down. -/
def shouldShrink (k : Kind) (count : Nat) : Bool :=
  match k with
  | node4 => false
  | _ => count ≤ k.shrunk.capacity

/-- Kinds are ordered by capacity. -/
def cmp (a b : Kind) : Ordering :=
  compare a.capacity b.capacity

def text : Kind → String
  | node4 => "Node4"
  | node16 => "Node16"
  | node48 => "Node48"
  | node256 => "Node256"

/-- All kinds, smallest first. -/
def all : List Kind :=
  [node4, node16, node48, node256]

/-- The kind that `text` writes this way. -/
def ofText? (s : String) : Option Kind :=
  all.find? fun k => k.text = s

end Kind

end RadixStore
