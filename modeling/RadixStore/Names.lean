/-!
# Names

Names for the things that are kept open from one step to another: cursors, snapshots, guards,
transactions. A name stands for at most one thing, the one it was given to last.
-/

namespace RadixStore

/-- What the names in use stand for. -/
abbrev Bindings (κ α : Type) := List (κ × α)

namespace Bindings

variable {κ α : Type} [DecidableEq κ]

/-- The thing called `name`. -/
def find (bs : Bindings κ α) (name : κ) : Option α :=
  (bs.find? fun b => b.1 = name).map Prod.snd

/-- Forget `name`. -/
def unbind (bs : Bindings κ α) (name : κ) : Bindings κ α :=
  bs.filter fun b => b.1 ≠ name

/-- Call `x` by `name` from now on. -/
def bind (bs : Bindings κ α) (name : κ) (x : α) : Bindings κ α :=
  (name, x) :: bs.unbind name

/-! ### What a name stands for after a change -/

theorem find_bind_self (bs : Bindings κ α) (name : κ) (x : α) :
    (bs.bind name x).find name = some x := by
  simp [bind, find]

theorem find_unbind_self (bs : Bindings κ α) (name : κ) : (bs.unbind name).find name = none := by
  simp [unbind, find]

theorem find_unbind_of_ne (bs : Bindings κ α) {name other : κ} (h : other ≠ name) :
    (bs.unbind name).find other = bs.find other := by
  induction bs with
  | nil => rfl
  | cons b bs ih =>
    by_cases hb : b.1 = name
    · have hne : ¬ b.1 = other := fun e => h (e.symm.trans hb)
      simpa [unbind, find, hb, List.find?_cons, hne, Ne.symm h] using ih
    · by_cases ho : b.1 = other
      · simp [unbind, find, ho, h]
      · simpa [unbind, find, hb, ho] using ih

theorem find_bind_of_ne (bs : Bindings κ α) {name other : κ} (x : α) (h : other ≠ name) :
    (bs.bind name x).find other = bs.find other := by
  have hu := find_unbind_of_ne bs h
  simpa [bind, find, Ne.symm h] using hu

/-! ### Names in use -/

variable {bs : Bindings κ α} {name : κ}

/-- Forgetting a name that stands for nothing changes nothing. -/
theorem unbind_of_find_none (h : bs.find name = none) : bs.unbind name = bs := by
  refine List.filter_eq_self.2 ?_
  intro b hb
  have hnone : ∀ a ∈ bs, ¬ a.1 = name := by simpa [find] using h
  simpa using hnone b hb

theorem nodup_unbind (h : (bs.map Prod.fst).Nodup) : ((bs.unbind name).map Prod.fst).Nodup :=
  h.sublist (List.filter_sublist.map Prod.fst)

theorem nodup_bind (h : (bs.map Prod.fst).Nodup) (x : α) :
    ((bs.bind name x).map Prod.fst).Nodup := by
  refine List.nodup_cons.2 ⟨?_, nodup_unbind h⟩
  intro hmem
  obtain ⟨b, hb, hname⟩ := List.mem_map.1 hmem
  simpa [hname] using (List.mem_filter.1 hb).2

end Bindings

end RadixStore
