import Mathlib
import RadixStore.Proofs.Tree.Contents
import RadixStore.Script.Tree

/-!
# A tree is a finite map

A dictionary is a plain finite map from keys to values, which answers the operations of a script on
a tree as far as they are about keys and values. A tree represents a dictionary when it is valid,
stores the same value under every key, and counts the keys rightly. Every step of a script keeps that
and answers as the dictionary does, whatever the keys are and whatever else the script does in
between: scans, cursors and measurements do not change what is stored.
-/

namespace RadixStore

variable {V : Type}

/-- A plain finite map from keys to values. -/
abbrev Dictionary (V : Type) := Finmap fun _ : Key => V

namespace Dictionary

/-- What a dictionary answers. -/
inductive Reply (V : Type) where
  /-- The value that a stored or removed key had before. -/
  | previous (old : Option V)
  /-- The value that is stored then, and whether it was made for it. -/
  | ensured (value : V) (made : Bool)
  | found (value : Option V)
  | size (n : Nat) (isEmpty : Bool)
deriving DecidableEq, Repr

/-- One operation on a dictionary; those that are not about keys and values it does not answer. -/
def step (m : Dictionary V) : TreeScript.Op V → Dictionary V × Option (Reply V)
  | .insert key value => (m.insert key value, some (.previous (m.lookup key)))
  | .getOrInsert key value =>
    match m.lookup key with
    | some found => (m, some (.ensured found false))
    | none => (m.insert key value, some (.ensured value true))
  | .remove key => (m.erase key, some (.previous (m.lookup key)))
  | .get key => (m, some (.found (m.lookup key)))
  | .size => (m, some (.size m.keys.card (m.keys.card == 0)))
  | _ => (m, none)

/-- The answers to a list of operations. -/
def run : Dictionary V → List (TreeScript.Op V) → List (Option (Reply V))
  | _, [] => []
  | m, op :: ops => (m.step op).2 :: run (m.step op).1 ops

/-! ### Counting keys -/

theorem keys_insert (m : Dictionary V) (key : Key) (value : V) :
    (m.insert key value).keys = insert key m.keys := by
  ext k
  rw [Finmap.mem_keys, Finmap.mem_insert, Finset.mem_insert, Finmap.mem_keys]

theorem mem_keys_iff (m : Dictionary V) (key : Key) : key ∈ m.keys ↔ (m.lookup key).isSome := by
  rw [Finmap.mem_keys, Finmap.lookup_isSome]

theorem card_insert (m : Dictionary V) (key : Key) (value : V) :
    (m.insert key value).keys.card =
      match m.lookup key with
      | none => m.keys.card + 1
      | some _ => m.keys.card := by
  rw [keys_insert]
  cases h : m.lookup key with
  | none =>
    refine Finset.card_insert_of_notMem ?_
    rw [mem_keys_iff, h]
    exact Bool.false_ne_true
  | some v =>
    have hmem : key ∈ m.keys := by
      rw [mem_keys_iff, h]
      rfl
    rw [Finset.insert_eq_of_mem hmem]

theorem card_erase (m : Dictionary V) (key : Key) :
    (m.erase key).keys.card =
      match m.lookup key with
      | none => m.keys.card
      | some _ => m.keys.card - 1 := by
  rw [Finmap.keys_erase]
  cases h : m.lookup key with
  | none =>
    have hmem : key ∉ m.keys := by
      rw [mem_keys_iff, h]
      exact Bool.false_ne_true
    rw [Finset.erase_eq_of_notMem hmem]
  | some v =>
    refine Finset.card_erase_of_mem ?_
    rw [mem_keys_iff, h]
    rfl

end Dictionary

/-! ### Trees that represent dictionaries -/

/-- The part of an answer that a dictionary gives too. -/
def TreeScript.Answer.reply? : TreeScript.Answer V → Option (Dictionary.Reply V)
  | .wrote old _ => some (.previous old)
  | .ensured v made _ => some (.ensured v made)
  | .value found => some (.found found)
  | .size n isEmpty => some (.size n isEmpty)
  | _ => none

/-- The tree stores what the dictionary does. -/
structure Tree.Represents (t : Tree V) (m : Dictionary V) : Prop where
  valid : t.Valid
  get?_eq : ∀ key, t.get? key = m.lookup key
  size_eq : t.size = m.keys.card

namespace Tree.Represents

variable {t u : Tree V} {m : Dictionary V} {key : Key} {r : Option Retired}

theorem empty : (Tree.empty : Tree V).Represents ∅ where
  valid := valid_empty
  get?_eq key := by rw [get?_empty, Finmap.lookup_empty]
  size_eq := rfl

theorem stored (h : t.Represents m) {value : V} (hedit : t.Edited key (some value) u r)
    (hsize : u.size = t.sizeAfterInsert (t.get? key)) : u.Represents (m.insert key value) where
  valid := hedit.valid
  get?_eq k := by
    rw [hedit.get? h.valid, Function.update_apply]
    by_cases hk : k = key
    · rw [if_pos hk, hk, Finmap.lookup_insert]
    · rw [if_neg hk, Finmap.lookup_insert_of_ne _ hk, h.get?_eq]
  size_eq := by
    rw [hsize, h.get?_eq, Dictionary.card_insert]
    cases m.lookup key with
    | none => exact congrArg (· + 1) h.size_eq
    | some v => exact h.size_eq

theorem removed (h : t.Represents m) {v : V} (hget : t.get? key = some v)
    (hedit : t.Edited key none u r) (hsize : u.size = t.size - 1) : u.Represents (m.erase key) where
  valid := hedit.valid
  get?_eq k := by
    rw [hedit.get? h.valid, Function.update_apply]
    by_cases hk : k = key
    · rw [if_pos hk, hk, Finmap.lookup_erase]
    · rw [if_neg hk, Finmap.lookup_erase_ne hk, h.get?_eq]
  size_eq := by
    rw [h.get?_eq] at hget
    rw [hsize, h.size_eq, Dictionary.card_erase, hget]

theorem erase_absent (h : t.Represents m) (hget : t.get? key = none) :
    t.Represents (m.erase key) where
  valid := h.valid
  get?_eq k := by
    by_cases hk : k = key
    · rw [hk, Finmap.lookup_erase, hget]
    · rw [Finmap.lookup_erase_ne hk, h.get?_eq]
  size_eq := by
    rw [h.get?_eq] at hget
    rw [Dictionary.card_erase, hget, h.size_eq]

theorem insert (h : t.Represents m) (key : Key) (value : V) :
    (t.insert key value).tree.Represents (m.insert key value) ∧
      (t.insert key value).old = m.lookup key := by
  obtain ⟨-, hold, hedit, hsize⟩ := h.valid.insert key value
  exact ⟨h.stored hedit hsize, hold.trans (h.get?_eq key)⟩

/-- The value of a key is left alone, if it has one, in the tree as in the dictionary. -/
theorem getOrInsert (h : t.Represents m) (key : Key) (value : V) :
    let e := t.getOrInsert key fun _ => value
    let after := m.step (.getOrInsert key value)
    e.written.tree.Represents after.1 ∧ some (.ensured e.value e.made) = after.2 := by
  intro e after
  obtain ⟨-, hcase⟩ := h.valid.getOrInsert key fun _ => value
  cases hget : t.get? key with
  | some found =>
    rw [hget] at hcase
    obtain ⟨hvalue, hmade, htree⟩ := hcase
    have hafter : after = (m, some (.ensured found false)) := by
      rw [h.get?_eq] at hget
      simp only [after, Dictionary.step, hget]
    rw [hafter, hvalue, hmade, htree]
    exact ⟨h, rfl⟩
  | none =>
    rw [hget] at hcase
    obtain ⟨hvalue, hmade, hedit, hsize⟩ := hcase
    have hafter : after = (m.insert key value, some (.ensured value true)) := by
      have hlookup := hget
      rw [h.get?_eq] at hlookup
      simp only [after, Dictionary.step, hlookup]
    rw [hafter, hvalue, hmade]
    refine ⟨h.stored hedit ?_, rfl⟩
    rw [hget]
    exact hsize

theorem remove (h : t.Represents m) (key : Key) :
    (t.remove key).tree.Represents (m.erase key) ∧ (t.remove key).old = m.lookup key := by
  obtain ⟨-, hold, hcase⟩ := h.valid.remove key
  refine ⟨?_, hold.trans (h.get?_eq key)⟩
  cases hget : t.get? key with
  | none =>
    rw [hget] at hcase
    rw [show t.remove key = ⟨t, none, none, none, none⟩ from hcase]
    exact h.erase_absent hget
  | some v =>
    rw [hget] at hcase
    exact h.removed hget hcase.1 hcase.2

end Tree.Represents

/-! ### Runs -/

namespace TreeScript

/-- One step keeps a tree and a dictionary together and answers the same from both. -/
theorem State.step_represents {st : State V} {m : Dictionary V} (h : st.tree.Represents m)
    (op : Op V) :
    (st.step op).1.tree.Represents (m.step op).1 ∧ (st.step op).2.reply? = (m.step op).2 := by
  cases op with
  | insert key value =>
    obtain ⟨htree, hold⟩ := h.insert key value
    exact ⟨htree, congrArg (fun old => some (Dictionary.Reply.previous old)) hold⟩
  | getOrInsert key value => exact h.getOrInsert key value
  | remove key =>
    obtain ⟨htree, hold⟩ := h.remove key
    exact ⟨htree, congrArg (fun old => some (Dictionary.Reply.previous old)) hold⟩
  | get key => exact ⟨h, congrArg (fun found => some (Dictionary.Reply.found found)) (h.get?_eq key)⟩
  | size => exact ⟨h, congrArg (fun n => some (Dictionary.Reply.size n (n == 0))) h.size_eq⟩
  | reverse name | next name _ | inspectCursor name =>
    unfold State.step
    dsimp only
    cases st.cursors.find name with
    | none => exact ⟨h, rfl⟩
    | some c => exact ⟨h, rfl⟩
  | scan _ _ _ _ | openCursor _ _ _ | close _ | shape | counters | resetCounters | inspect =>
    exact ⟨h, rfl⟩

theorem run_reply_of_represents (ops : List (Op V)) {st : State V} {m : Dictionary V}
    (h : st.tree.Represents m) : (run st ops).map Answer.reply? = m.run ops := by
  induction ops generalizing st m with
  | nil => rfl
  | cons op ops ih =>
    obtain ⟨hnext, hanswer⟩ := State.step_represents h op
    show (st.step op).2.reply? :: (run (st.step op).1 ops).map Answer.reply? = _
    rw [hanswer, ih hnext]
    rfl

/-- A new tree answers every script as a finite map does that was empty at first. -/
theorem run_start_eq_dictionary_run (ops : List (Op V)) :
    (run (start : State V) ops).map Answer.reply? = (∅ : Dictionary V).run ops :=
  run_reply_of_represents ops Tree.Represents.empty

end TreeScript

end RadixStore
