import Mathlib
import RadixStore.Proofs.Tree.Lookup
import RadixStore.Proofs.Tree.Remove

/-!
# The contents of a tree

Every operation on a valid tree succeeds, leaves a valid tree, and is described by what the tree
stores afterwards: a key that was stored has its new value, a key that was removed has none, all
others have what they had. An operation that changes the structure is one edit of the root in place;
an operation that only changes the value of a key touches no node but the leaf.
-/

namespace RadixStore

variable {V : Type}

namespace Tree

variable {t u : Tree V} {key : Key} {o : Option V} {r : Option Retired}

/-! ### Edited trees -/

/-- What a tree answers when one key has been given another value, or none. -/
theorem Valid.get?_of_stored (ht : t.Valid) (hu : u.Valid)
    (h : ∀ l, (Node.inner u.root).Has l ↔ Stored key o (Node.inner t.root).Has l) :
    u.get? = Function.update t.get? key o := by
  funext k
  apply Option.ext
  intro v
  rw [hu.get?_eq_some_iff, h, Function.update_apply]
  unfold Stored
  by_cases hk : k = key
  · rw [if_pos hk, if_pos hk]
  · rw [if_neg hk, if_neg hk, ht.get?_eq_some_iff]

/-- The tree `u` is `t` after `o` was stored under `key`, or the key was removed if `o` is none, and
    `r` is reported as unlinked. -/
structure Edited (t : Tree V) (key : Key) (o : Option V) (u : Tree V) (r : Option Retired) :
    Prop where
  edit : Edit t.nextId key o true [] t.root (.inPlace u.root) r
  nextId_eq : u.nextId = t.nextId + 1

theorem Edited.valid (h : t.Edited key o u r) : u.Valid :=
  h.edit.valid

theorem Edited.has_iff (h : t.Edited key o u r) (l : Leaf V) :
    (Node.inner u.root).Has l ↔ Stored key o (Node.inner t.root).Has l :=
  h.edit.stored _ rfl l

theorem Edited.get? (h : t.Edited key o u r) (ht : t.Valid) :
    u.get? = Function.update t.get? key o :=
  ht.get?_of_stored h.valid h.has_iff

/-! ### Storing and removing -/

/-- Right reports of the value that a key had are the value that it had. -/
theorem Valid.eq_get? (ht : t.Valid) {found : Option V}
    (h : ∀ v, found = some v ↔ (Node.inner t.root).Has ⟨key, v⟩) : found = t.get? key := by
  apply Option.ext
  intro v
  rw [h v, ht.get?_eq_some_iff]

/-- An attempt to store a key succeeds: the key had a value that was to be left alone, or the tree
    was edited. -/
theorem Valid.tryInsert (ht : t.Valid) (key : Key) (value : V) (mode : InsertMode) :
    ∃ w, t.tryInsert key value mode = .ok w ∧ w.fault = none ∧ w.old = t.get? key ∧
      (mode = .ifAbsent ∧ (t.get? key).isSome ∧ w.tree = t ∨
        (mode = .ifAbsent → t.get? key = none) ∧ t.Edited key (some value) w.tree w.retired ∧
          w.tree.size = t.sizeAfterInsert (t.get? key)) := by
  obtain ⟨out, hout, hold, hstores⟩ :=
    Branch.Valid.insert t.nextId ⟨key, value⟩ mode ht List.nil_prefix
  have hget := ht.eq_get? hold
  have hout : t.root.insert ⟨key, value⟩ mode t.nextId 0 = .ok out := hout
  have htry : t.tryInsert key value mode = t.settle t.sizeAfterInsert out := by
    unfold Tree.tryInsert
    rw [hout]
    rfl
  cases out with
  | unchanged found =>
    obtain ⟨hmode, hsome⟩ := hstores
    have hget : found = t.get? key := hget
    exact ⟨_, htry, rfl, hget, Or.inl ⟨hmode, hget ▸ hsome, rfl⟩⟩
  | patched p =>
    obtain ⟨hedit, hmode⟩ := hstores
    obtain ⟨change, old, reshape, retired⟩ := p
    have hget : old = t.get? key := hget
    cases change with
    | inPlace root =>
      have hfree : mode = .ifAbsent → t.get? key = none := fun h => hget ▸ hmode h
      exact ⟨_, htry, rfl, hget,
        Or.inr ⟨hfree, ⟨hedit, rfl⟩, congrArg t.sizeAfterInsert hget⟩⟩
    | relinked c => exact absurd hedit.valid.1 (by decide)
    | unlinked => exact hedit.valid.elim

theorem Valid.insert (ht : t.Valid) (key : Key) (value : V) :
    (t.insert key value).fault = none ∧ (t.insert key value).old = t.get? key ∧
      t.Edited key (some value) (t.insert key value).tree (t.insert key value).retired ∧
      (t.insert key value).tree.size = t.sizeAfterInsert (t.get? key) := by
  obtain ⟨w, hw, hfault, hold, hcase⟩ := ht.tryInsert key value .upsert
  unfold Tree.insert
  rw [hw]
  rcases hcase with ⟨hmode, -⟩ | ⟨-, hedit, hsize⟩
  · cases hmode
  · exact ⟨hfault, hold, hedit, hsize⟩

theorem Valid.getOrInsert (ht : t.Valid) (key : Key) (make : Unit → V) :
    (t.getOrInsert key make).written.fault = none ∧
      match t.get? key with
      | some found => (t.getOrInsert key make).value = found ∧
          (t.getOrInsert key make).made = false ∧ (t.getOrInsert key make).written.tree = t
      | none => (t.getOrInsert key make).value = make () ∧
          (t.getOrInsert key make).made = true ∧
          t.Edited key (some (make ())) (t.getOrInsert key make).written.tree
            (t.getOrInsert key make).written.retired ∧
          (t.getOrInsert key make).written.tree.size = t.size + 1 := by
  unfold Tree.getOrInsert
  cases hget : t.get? key with
  | some found => exact ⟨rfl, rfl, rfl, rfl⟩
  | none =>
    obtain ⟨w, hw, hfault, hold, hcase⟩ := ht.tryInsert key (make ()) .ifAbsent
    dsimp only
    rw [hw]
    rw [hget] at hold hcase
    rcases hcase with ⟨-, hsome, -⟩ | ⟨-, hedit, hsize⟩
    · cases hsome
    · refine ⟨hfault, ?_, rfl, hedit, hsize⟩
      show w.old.getD (make ()) = make ()
      rw [hold]
      rfl

/-- An attempt to remove a key succeeds: there was none and nothing changes, or the tree was
    edited. -/
theorem Valid.tryRemove (ht : t.Valid) (key : Key) :
    ∃ w, t.tryRemove key = .ok w ∧ w.fault = none ∧ w.old = t.get? key ∧
      match t.get? key with
      | none => w = ⟨t, none, none, none, none⟩
      | some _ => t.Edited key none w.tree w.retired ∧ w.tree.size = t.size - 1 := by
  obtain ⟨out, hout, hold, hremoves⟩ := Branch.Valid.remove key t.nextId ht
  have hget := ht.eq_get? hold
  have hout : t.root.remove key t.nextId true 0 = .ok out := hout
  have htry : t.tryRemove key = t.settle (fun _ => t.size - 1) out := by
    unfold Tree.tryRemove
    rw [hout]
    rfl
  cases out with
  | unchanged found =>
    have hnone : found = none := hremoves
    have hget : found = t.get? key := hget
    refine ⟨_, htry, rfl, hget, ?_⟩
    rw [← hget, hnone]
  | patched p =>
    obtain ⟨hsome, hedit⟩ := hremoves
    obtain ⟨change, old, reshape, retired⟩ := p
    have hget : old = t.get? key := hget
    have hsome : old.isSome := hsome
    obtain ⟨v, rfl⟩ := Option.isSome_iff_exists.1 hsome
    rw [← hget]
    cases change with
    | inPlace root => exact ⟨_, htry, rfl, rfl, ⟨hedit, rfl⟩, rfl⟩
    | relinked c => exact absurd hedit.valid.1 (by decide)
    | unlinked => exact hedit.valid.elim

theorem Valid.remove (ht : t.Valid) (key : Key) :
    (t.remove key).fault = none ∧ (t.remove key).old = t.get? key ∧
      match t.get? key with
      | none => t.remove key = ⟨t, none, none, none, none⟩
      | some _ => t.Edited key none (t.remove key).tree (t.remove key).retired ∧
          (t.remove key).tree.size = t.size - 1 := by
  obtain ⟨w, hw, hcase⟩ := ht.tryRemove key
  unfold Tree.remove
  rw [hw]
  exact hcase

end Tree

/-! ### Changing a value where it stands -/

namespace Branch

/-- Changing the value of a key, if it has one, keeps a node valid and changes no other leaf. -/
theorem Valid.update (key : Key) (f : V → V) {n : Inner V} {isRoot : Bool} {path : Key}
    (h : n.Valid isRoot path) {found : Option V}
    (hfound : ∀ v, found = some v ↔ (Node.inner n).Has ⟨key, v⟩) :
    (n.update key f path.length).Valid isRoot path ∧
      ∀ l, (Node.inner (n.update key f path.length)).Has l ↔
        Stored key (found.map f) (Node.inner n).Has l := by
  obtain ⟨stem, hn, hs⟩ := h
  have hdepth : path.length + n.stem.length = (path ++ stem).length := by
    rw [hn.stem_length, List.length_append]
  have hnothing : (∀ v, ¬ (Node.inner n).Has ⟨key, v⟩) →
      ∀ l, (Node.inner n).Has l ↔ Stored key (found.map f) (Node.inner n).Has l := by
    intro hnone
    have hfound : found = none :=
      Option.eq_none_iff_forall_ne_some.2 fun v hv => hnone v ((hfound v).1 hv)
    rw [hfound]
    exact stored_none hnone
  rw [Branch.update]
  split
  · rename_i hload
    rw [hdepth] at hload
    exact ⟨⟨stem, hn, hs⟩, hnothing (hn.not_has_of_free rfl hload)⟩
  · rename_i k hload
    rw [hdepth] at hload ⊢
    by_cases hkey : k.key = key
    · rw [if_pos hkey]
      subst hkey
      obtain rfl : found = some k.value :=
        (hfound k.value).2 (Node.Has.inner hload (Node.Has.leaf k))
      obtain ⟨hpre, -⟩ := (hn.under _ _ hload).edge_of_has (Node.Has.leaf k)
      have hsome : (n.load (.ofKey k.key (path ++ stem).length)).isSome := by
        rw [hload]
        rfl
      have halters := alters_replace hn.sound hsome (suits_leaf _ (k.update f))
      have hidle : (n.replace (.ofKey k.key (path ++ stem).length) (.leaf (k.update f))).lock.Idle := by
        rw [lock_replace]
        exact hn.idle
      have hmload : (n.replace (.ofKey k.key (path ++ stem).length) (.leaf (k.update f))).load =
          Function.update n.load (.ofKey k.key (path ++ stem).length)
            ((some (f k.value)).map fun v => .leaf ⟨k.key, v⟩) := halters.load_eq
      have hm := hn.updateLeaf hpre rfl halters.stem_eq halters.sound hidle hmload
      refine ⟨⟨stem, hm, hs.alters hn.sound halters⟩, ?_⟩
      refine hn.stored_of_slot hm hmload rfl (stored_leaf ?_)
      intro c hc
      rw [hload] at hc
      cases hc
      exact ⟨k.value, rfl⟩
    · rw [if_neg hkey]
      exact ⟨⟨stem, hn, hs⟩, hnothing (hn.not_has_of_leaf hload hkey)⟩
  · rename_i m hload
    have hlt := lt_length_of_load hload
    rw [hdepth] at hload ⊢
    obtain ⟨b, hb⟩ := edge_of_load_inner hload
    rw [hb] at hload ⊢
    have hbelow : ∀ v, found = some v ↔ (Node.inner m).Has ⟨key, v⟩ :=
      fun v => (hfound v).trans (hn.has_child_iff hb hload v)
    obtain ⟨hvalid, hhas⟩ := Valid.update key f (hn.valid_of_load_inner hload) hbelow
    rw [length_path_append_byte, ← List.length_append] at hvalid hhas
    have hsome : (n.load (.byte b)).isSome := by
      rw [hload]
      rfl
    have halters := alters_replace hn.sound hsome
      (suits_byte b (.inner (m.update key f ((path ++ stem).length + 1))))
    have hm := hn.updateChild halters hn.idle (Node.valid_inner_iff.2 hvalid)
    exact ⟨⟨stem, hm, hs.alters hn.sound halters⟩,
      hn.stored_of_child hm halters.load_eq hb hload hhas⟩
termination_by key.length - path.length
decreasing_by
  simp only [List.length_append, List.length_singleton]
  have := hn.stem_length
  omega

end Branch

namespace Tree

variable {t : Tree V} {key : Key} {f : V → V}

theorem Valid.update (ht : t.Valid) : (t.update key f).Valid :=
  (Branch.Valid.update key f ht fun _ => ht.get?_eq_some_iff).1

theorem Valid.get?_update (ht : t.Valid) :
    (t.update key f).get? = Function.update t.get? key ((t.get? key).map f) :=
  ht.get?_of_stored ht.update (Branch.Valid.update key f ht fun _ => ht.get?_eq_some_iff).2

end Tree

end RadixStore
