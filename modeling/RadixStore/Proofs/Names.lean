import Mathlib
import RadixStore.Names

/-!
# What names stand for

As long as no name occurs twice, bindings are known from what each name stands for, but for the order in
which they are listed.
-/

namespace RadixStore.Bindings

variable {κ α β : Type} [DecidableEq κ] {bs cs : Bindings κ α} {name other : κ} {x : α}

theorem find_eq_none_iff : bs.find name = none ↔ name ∉ bs.map Prod.fst := by
  simp only [find, Option.map_eq_none_iff, List.find?_eq_none, decide_eq_true_eq, List.mem_map,
    not_exists, not_and]

theorem find_cons (b : κ × α) (bs : Bindings κ α) (name : κ) :
    find (b :: bs) name = if name = b.1 then some b.2 else bs.find name := by
  by_cases hname : name = b.1
  · simp [find, hname]
  · simp [find, hname, Ne.symm hname]

theorem mem_iff_find (h : (bs.map Prod.fst).Nodup) : (name, x) ∈ bs ↔ bs.find name = some x := by
  simp only [find, Option.map_eq_some_iff, Prod.exists, exists_eq_right]
  constructor
  · intro hmem
    have hsome : (bs.find? fun b => b.1 = name).isSome :=
      List.find?_isSome.2 ⟨(name, x), hmem, by simp⟩
    obtain ⟨b, hb⟩ := Option.isSome_iff_exists.1 hsome
    have hname : b.1 = name := by simpa using List.find?_some hb
    have heq : b = (name, x) :=
      List.inj_on_of_nodup_map h (List.mem_of_find?_eq_some hb) hmem hname
    exact ⟨name, heq ▸ hb⟩
  · rintro ⟨other, hfind⟩
    have hname : other = name := by simpa using List.find?_some hfind
    exact hname ▸ List.mem_of_find?_eq_some hfind

theorem find_map (bs : Bindings κ α) (f : α → β) (name : κ) :
    find (bs.map fun b => (b.1, f b.2)) name = (bs.find name).map f := by
  simp [find, List.find?_map, Function.comp_def]

/-! ### Names that are given and forgotten -/

@[simp] theorem unbind_unbind (bs : Bindings κ α) (name : κ) :
    (bs.unbind name).unbind name = bs.unbind name :=
  unbind_of_find_none (find_unbind_self bs name)

@[simp] theorem unbind_bind (bs : Bindings κ α) (name : κ) (x : α) :
    (bs.bind name x).unbind name = bs.unbind name := by
  simp [bind, unbind]

theorem find_unbind (bs : Bindings κ α) (name other : κ) :
    (bs.unbind name).find other = if other = name then none else bs.find other := by
  split
  · rename_i hname
    rw [hname, find_unbind_self]
  · rename_i hname
    exact find_unbind_of_ne bs hname

theorem find_bind (bs : Bindings κ α) (name other : κ) (x : α) :
    (bs.bind name x).find other = if other = name then some x else bs.find other := by
  split
  · rename_i hname
    rw [hname, find_bind_self]
  · rename_i hname
    exact find_bind_of_ne bs x hname

/-- To call a thing once more by the name that it has changes nothing. -/
theorem find_bind_of_find (hfind : bs.find name = some x) (other : κ) :
    (bs.bind name x).find other = bs.find other := by
  rw [find_bind]
  split
  · rename_i hother
    rw [hother, hfind]
  · rfl

/-! ### The order in which they are listed -/

/-- Bindings in which the same names stand for the same things are the same but for the order. -/
theorem perm_of_find_eq (hb : (bs.map Prod.fst).Nodup) (hc : (cs.map Prod.fst).Nodup)
    (h : ∀ name, bs.find name = cs.find name) : bs.Perm cs := by
  refine (List.perm_ext_iff_of_nodup hb.of_map hc.of_map).2 ?_
  rintro ⟨name, x⟩
  rw [mem_iff_find hb, mem_iff_find hc, h]

/-- What a name stands for does not depend on the order. -/
theorem find_perm (hperm : cs.Perm bs) (h : (bs.map Prod.fst).Nodup) (name : κ) :
    cs.find name = bs.find name := by
  have hc : (cs.map Prod.fst).Nodup := (hperm.map Prod.fst).nodup_iff.2 h
  refine Option.ext fun x => ?_
  rw [← mem_iff_find hc, hperm.mem_iff, mem_iff_find h]

/-- A name stands for one of the things in use, and the others are left when it is forgotten. -/
theorem bind_perm (h : (bs.map Prod.fst).Nodup) (hfind : bs.find name = some x) :
    (bs.bind name x).Perm bs :=
  perm_of_find_eq (nodup_bind h x) h (find_bind_of_find hfind)

theorem countP_unbind (h : (bs.map Prod.fst).Nodup) (hfind : bs.find name = some x) (P : α → Bool) :
    bs.countP (fun b => P b.2) = (bs.unbind name).countP (fun b => P b.2) + (P x).toNat := by
  rw [← (bind_perm h hfind).countP_eq, bind, List.countP_cons]
  cases P x <;> rfl

end RadixStore.Bindings
