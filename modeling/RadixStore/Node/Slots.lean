/-!
# Slots

A row of places, each empty or taken. The larger node bodies are built from such rows.
-/

namespace RadixStore

/-- A row of places. -/
abbrev Slots (α : Type) := List (Option α)

namespace Slots

variable {α : Type}

/-- `n` empty places. -/
def empty (n : Nat) : Slots α :=
  List.replicate n none

/-- What is in place `i`. -/
def at? (s : Slots α) (i : Nat) : Option α :=
  s[i]?.join

/-- Put `c` into place `i`. -/
def put (s : Slots α) (i : Nat) (c : α) : Slots α :=
  s.set i (some c)

/-- Empty place `i`. -/
def clear (s : Slots α) (i : Nat) : Slots α :=
  s.set i none

/-- The first empty place. -/
def firstFree? (s : Slots α) : Option Nat :=
  s.findIdx? Option.isNone

theorem getElem?_of_at? {s : Slots α} {i : Nat} {c : α} (h : s.at? i = some c) :
    s[i]? = some (some c) := by
  unfold at? at h
  cases hs : s[i]? with
  | none => rw [hs] at h; simp at h
  | some o => rw [hs] at h; exact congrArg some h

theorem sizeOf_lt_of_at? [SizeOf α] {s : Slots α} {i : Nat} {c : α} (h : s.at? i = some c) :
    sizeOf c < sizeOf s := by
  have hlt := List.sizeOf_lt_of_mem (List.mem_of_getElem? (getElem?_of_at? h))
  simp only [Option.some.sizeOf_spec] at hlt
  omega

end Slots

end RadixStore
