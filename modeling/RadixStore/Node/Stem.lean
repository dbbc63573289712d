import RadixStore.Key

/-!
# Stems

The stem of an inner node is what all keys below the node share between the edge that leads to it
and the edges that leave it. A stem may be of any length, but a node keeps only its first ten
bytes; the others are read off a key below the node when they are needed.
-/

namespace RadixStore

/-- The most bytes of a stem that a node keeps. -/
def maxStemHead : Nat := 10

/-- A stem: its length and the bytes of it that are kept. A node keeps the length in 32 bits, which is
    enough as long as all keys are shorter than `2 ^ 32` (`exec_stem_fits`). -/
structure Stem where
  length : Nat
  head : Key
deriving DecidableEq, Repr

namespace Stem

/-- The stem of the given length that starts with `bytes`. -/
def ofBytes (bytes : Key) (length : Nat) : Stem :=
  ⟨length, bytes.take (min length maxStemHead)⟩

def empty : Stem := ofBytes [] 0

/-- Whether `key` can lie below a node with this stem that was reached at `depth`, as far as the
    kept bytes tell. -/
def admits (s : Stem) (key : Key) (depth : Nat) : Bool :=
  depth + s.length ≤ key.length && s.head.isPrefixOf (key.drop depth)

end Stem

end RadixStore
