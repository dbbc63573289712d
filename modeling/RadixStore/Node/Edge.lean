import RadixStore.Key

/-!
# Edges

A child hangs off an inner node on an edge, and the edges of a node stand in key order. The key
that ends at the node comes before all keys that go on, so the terminal has position 0 and the
child under byte `b` has position `b + 1`. Positions `-1` and `257` lie before and after all edges.
-/

namespace RadixStore

/-! ### The 256 bytes in order -/

/-- All bytes, ascending. -/
def allBytes : List UInt8 :=
  (List.range 256).map UInt8.ofNat

/-- The bytes from `b` on, ascending. -/
def bytesFrom (b : UInt8) : List UInt8 :=
  allBytes.drop b.toNat

/-- The bytes up to `b`, descending. -/
def bytesUpTo (b : UInt8) : List UInt8 :=
  (allBytes.take (b.toNat + 1)).reverse

/-! ### Edges -/

/-- Where a child hangs off an inner node. -/
inductive Edge where
  /-- The leaf whose key ends at the node. -/
  | terminal
  /-- The child for the next byte of the key. -/
  | byte (b : UInt8)
deriving DecidableEq, Repr

namespace Edge

/-- The edge that `key` follows at a node whose own bytes end at `depth`. -/
def ofKey (key : Key) (depth : Nat) : Edge :=
  match key[depth]? with
  | none => .terminal
  | some b => .byte b

/-- The position of an edge in key order. -/
def position : Edge → Int
  | .terminal => 0
  | .byte b => b.toNat + 1

theorem lt_length_of_ofKey {key : Key} {depth : Nat} {b : UInt8}
    (h : ofKey key depth = .byte b) : depth < key.length := by
  unfold ofKey at h
  split at h
  · exact Edge.noConfusion h
  · exact (List.getElem?_eq_some_iff.1 ‹_›).1

end Edge

/-- Before the terminal. -/
def beforeAll : Int := -1

/-- After the child for byte 255. -/
def afterAll : Int := 257

end RadixStore
