/-!
# Keys

A key is a byte string of any length, the empty one included. Keys are compared byte by byte, and
a proper initial part of a key comes before the key. A descent through the tree looks at keys in
two ways: it asks how many bytes two of them have in common at their start, and it takes the bytes
of a key between two depths.
-/

namespace RadixStore

/-- A key is a byte string; `<` on it is the lexicographic order. -/
abbrev Key := List UInt8

namespace Key

/-- How many bytes `a` and `b` have in common at their start. -/
def commonLength : Key → Key → Nat
  | x :: a, y :: b => if x = y then commonLength a b + 1 else 0
  | _, _ => 0

/-- The `length` bytes of `key` from `depth` on, fewer if the key ends before. -/
def slice (key : Key) (depth length : Nat) : Key :=
  (key.drop depth).take length

/-! ### What two byte strings have in common -/

theorem commonLength_le_left (a b : Key) : commonLength a b ≤ a.length := by
  induction a generalizing b with
  | nil => simp [commonLength]
  | cons x a ih =>
    cases b with
    | nil => simp [commonLength]
    | cons y b =>
      by_cases h : x = y
      · simpa [commonLength, h] using ih b
      · simp [commonLength, h]

/-- The common bytes are the same in both. -/
theorem take_commonLength (a b : Key) : a.take (commonLength a b) = b.take (commonLength a b) := by
  induction a generalizing b with
  | nil => simp [commonLength]
  | cons x a ih =>
    cases b with
    | nil => simp [commonLength]
    | cons y b =>
      by_cases h : x = y
      · simp [commonLength, h, ih b]
      · simp [commonLength, h]

end Key

end RadixStore
