import Mathlib
import RadixStore.Proofs.Tree.FiniteMap
import RadixStore.Proofs.Tree.WriteSections

/-!
# What a lock word tells

Whoever finds the lock word of a node as it was before may trust all that was read there: the node
still stands on the same path, with the same stem, terminal and children. An operation goes through
exactly one write section of every other node that was linked, and the word that it leaves tells
whether the node is still linked. An operation that has nothing to do leaves every word as it was.

The nodes that go on are known from the tree afterwards. Left to be shown is that a node which does
not go on is the one that is reported as unlinked.
-/

namespace RadixStore

variable {V : Type}

/-! ### Unlinked nodes -/

namespace Branch

/-- The node is linked in what is left, if anything is, or is the one that is reported as unlinked. -/
def LinkedOrRetired (k : Inner V) (left : Option (Node V)) (r : Option Retired) : Prop :=
  (∃ c, left = some c ∧ c.Owns k.id) ∨ r = some k.retired

variable {n m k : Inner V} {path stem q : Key} {edge : Edge} {o : Option (Node V)}
  {r : Option Retired}

/-- When one child is exchanged, the nodes below are still linked, or reported as unlinked, as soon as
    those below this child are. -/
theorem Reaches.linked_of_update (h : n.Reaches path k q) (hstem : n.fullStem path.length = .ok stem)
    (hid : m.id = n.id ∨ r = some n.retired) (hload : m.load = Function.update n.load edge o)
    (hbelow : ∀ b c, edge = .byte b → n.load edge = some (.inner c) →
      c.Reaches (path ++ stem ++ [b]) k q → k.LinkedOrRetired o r) :
    k.LinkedOrRetired (some (.inner m)) r := by
  suffices hlinked : (Node.inner m).Owns k.id ∨ r = some k.retired from
    hlinked.imp_left fun hi => ⟨_, rfl, hi⟩
  cases h with
  | here =>
    refine hid.imp_left fun hid => ?_
    rw [← hid]
    exact Node.Owns.self m
  | @child _ c _ _ stem' _ b hstem' hc hreach =>
    rw [hstem] at hstem'
    cases hstem'
    by_cases hb : Edge.byte b = edge
    · rw [hb] at hc
      refine (hbelow b c hb.symm hc hreach).imp_left ?_
      rintro ⟨d, rfl, hd⟩
      exact Node.owns_inner_iff.2 (Or.inr ⟨edge, d, by rw [hload, Function.update_self], hd⟩)
    · have hc' : m.load (.byte b) = some (.inner c) := by
        rw [hload, Function.update_of_ne hb]
        exact hc
      exact Or.inl (Node.Owns.child hc' hreach.owns)

/-- No node is lost where a leaf is exchanged. -/
theorem Reaches.linked_of_leaf (h : n.Reaches path k q) (hstem : n.fullStem path.length = .ok stem)
    (hid : m.id = n.id ∨ r = some n.retired) (hload : m.load = Function.update n.load edge o)
    (hleaf : ∀ c, n.load edge ≠ some (.inner c)) : k.LinkedOrRetired (some (.inner m)) r :=
  h.linked_of_update hstem hid hload fun _ c _ hc => absurd hc (hleaf c)

/-- An identity below one child is gone when that child is exchanged for a node without it. -/
theorem not_owns_of_update {i : NodeId} (hd : (Node.inner n).Distinct) (hid : m.id = n.id)
    (hload : m.load = Function.update n.load edge o) {c : Node V} (hc : n.load edge = some c)
    (hi : c.Owns i) (ho : ∀ d, o = some d → ¬ d.Owns i) : ¬ (Node.inner m).Owns i := by
  cases hd with
  | inner _ hself hedges =>
    intro howns
    rcases Node.owns_inner_iff.1 howns with rfl | ⟨e, d, hload', hd⟩
    · exact hself edge c hc (hid ▸ hi)
    · rcases load_cases_of_update hload hload' with ⟨-, hload'⟩ | ⟨he, hload'⟩
      · exact ho d hload' hd
      · exact he (hedges _ _ _ _ _ hload' hc hd hi)

end Branch

variable {id : NodeId} {key : Key} {o : Option V} {r : Option Retired}

/-- A node below an edited node is still linked afterwards, or reported as unlinked. -/
theorem Edit.linked_or_retired {isRoot : Bool} {path : Key} {n : Inner V} {ch : Change V}
    (h : Edit id key o isRoot path n ch r) (hn : n.Valid isRoot path) {k : Inner V} {q : Key}
    (hreach : n.Reaches path k q) : k.LinkedOrRetired ch.node? r := by
  induction h generalizing k q with
  | @leaf isRoot path stem n m edge hholds _ _ hleaf hm _ _ =>
    refine hreach.linked_of_leaf (hholds.fullStem_of_valid hn) (Or.inl hm.id_eq) hm.load_eq ?_
    intro c hc
    obtain ⟨v, hv⟩ := hleaf _ hc
    cases hv
  | @resized path stem n m edge hholds _ _ hleaf _ _ _ _ hload _ =>
    refine hreach.linked_of_leaf (hholds.fullStem_of_valid hn) (Or.inr rfl) hload ?_
    intro c hc
    obtain ⟨v, hv⟩ := hleaf _ hc
    cases hv
  | @forkedLeaf isRoot path stem mid n m fork b old v hholds hload _ _ _ _ hm _ _ =>
    refine hreach.linked_of_leaf (hholds.fullStem_of_valid hn) (Or.inl hm.id_eq) hm.load_eq ?_
    intro c hc
    rw [hload] at hc
    cases hc
  | @forkedStem path mid rest n fork b v _ _ _ _ hfork =>
    exact Or.inl ⟨_, rfl, hfork.owns_iff.2 (Or.inr (Or.inr (Branch.owns_cut.2 hreach.owns)))⟩
  | @collapsedLeaf path stem n edge edge' v l _ _ hload hload' _ hrest =>
    cases hreach with
    | here => exact Or.inr rfl
    | @child _ c _ _ _ _ b _ hc _ =>
      -- the two entries are leaves
      rcases (Branch.load_eq_some_iff_of_two hload hload' hrest).1 hc with ⟨-, hc⟩ | ⟨-, hc⟩
      · cases hc
      · cases hc
  | @collapsedInner path stem n m edge b v _ _ hload hload' _ hrest =>
    cases hreach with
    | here => exact Or.inr rfl
    | @child _ c _ _ _ _ b' _ hc hreach =>
      rcases (Branch.load_eq_some_iff_of_two hload hload' hrest).1 hc with ⟨-, hc⟩ | ⟨-, hc⟩
      · cases hc
      · cases hc
        exact Or.inl ⟨_, rfl, Branch.owns_merge.2 hreach.owns⟩
  | @belowInPlace isRoot path stem n m c d b r hholds _ hload _ hm _ _ ih =>
    refine hreach.linked_of_update (hholds.fullStem_of_valid hn) (Or.inl hm.id_eq) hm.load_eq ?_
    intro b' c' hb hc hbelow
    cases hb
    rw [hload] at hc
    cases hc
    exact ih (hholds.valid_of_load_inner hload) hbelow
  | @belowRelinked isRoot path stem n m c b d r hholds _ hload _ hm _ _ ih =>
    refine hreach.linked_of_update (hholds.fullStem_of_valid hn) (Or.inl hm.id_eq) hm.load_eq ?_
    intro b' c' hb hc hbelow
    cases hb
    rw [hload] at hc
    cases hc
    exact ih (hholds.valid_of_load_inner hload) hbelow

/-- What is reported as unlinked was linked before and is not linked afterwards. -/
theorem Edit.unlinked {isRoot : Bool} {path : Key} {n : Inner V} {ch : Change V} {x : Retired}
    (h : Edit id key o isRoot path n ch (some x)) (hd : (Node.inner n).Distinct)
    (hfresh : ¬ (Node.inner n).Owns id) :
    (Node.inner n).Owns x.id ∧ ∀ c, ch.node? = some c → ¬ c.Owns x.id := by
  generalize hr : some x = r at h
  induction h with
  | leaf _ _ _ _ _ _ _ => cases hr
  | forkedLeaf _ _ _ _ _ _ _ _ _ => cases hr
  | forkedStem _ _ _ _ _ => cases hr
  | @resized path stem n m edge _ _ _ _ hid _ _ _ hload _ =>
    cases hr
    refine ⟨Node.Owns.self n, ?_⟩
    intro c hc howns
    cases hc
    rcases Node.owns_inner_iff.1 howns with hself | ⟨e, d, hd', hi⟩
    · have hself : n.id = m.id := hself
      exact hfresh (hid ▸ hself ▸ Node.Owns.self n)
    · rcases Branch.load_cases_of_update hload hd' with ⟨-, hd'⟩ | ⟨-, hd'⟩
      · obtain ⟨v, -, rfl⟩ := Option.map_eq_some_iff.1 hd'
        exact Node.not_owns_leaf _ _ hi
      · cases hd with
        | inner _ hself _ => exact hself e d hd' hi
  | @collapsedLeaf path stem n edge edge' v l _ _ _ _ _ _ =>
    cases hr
    refine ⟨Node.Owns.self n, ?_⟩
    intro c hc howns
    cases hc
    exact Node.not_owns_leaf l _ howns
  | @collapsedInner path stem n m edge b v _ _ _ hload' _ _ =>
    cases hr
    refine ⟨Node.Owns.self n, ?_⟩
    intro c hc howns
    cases hc
    cases hd with
    | inner _ hself _ => exact hself (.byte b) _ hload' (Branch.owns_merge.1 howns)
  | @belowInPlace isRoot path stem n m c d b r _ _ hload _ hm _ _ ih =>
    obtain ⟨howns, hgone⟩ := ih (hd.child hload) (fun hi => hfresh (.child hload hi)) hr
    refine ⟨Node.Owns.child hload howns, ?_⟩
    intro c' hc'
    cases hc'
    refine Branch.not_owns_of_update hd hm.id_eq hm.load_eq hload howns ?_
    intro d' hd'
    cases hd'
    exact hgone _ rfl
  | @belowRelinked isRoot path stem n m c b d r _ _ hload _ hm _ _ ih =>
    obtain ⟨howns, hgone⟩ := ih (hd.child hload) (fun hi => hfresh (.child hload hi)) hr
    refine ⟨Node.Owns.child hload howns, ?_⟩
    intro c' hc'
    cases hc'
    refine Branch.not_owns_of_update hd hm.id_eq hm.load_eq hload howns ?_
    intro d' hd'
    cases hd'
    exact hgone _ rfl

/-! ### Linked nodes -/

namespace Tree

variable {t u : Tree V} {n : Inner V} {x : Retired}

/-- The node is linked in the tree. -/
def Links (t : Tree V) (n : Inner V) : Prop :=
  ∃ q, t.root.Reaches [] n q

theorem links_root (t : Tree V) : t.Links t.root :=
  ⟨[], .here⟩

theorem Links.valid (h : t.Links n) (ht : t.Valid) : ∃ isRoot path, n.Valid isRoot path := by
  obtain ⟨q, hreach⟩ := h
  obtain ⟨isRoot, hn⟩ := hreach.valid ht
  exact ⟨isRoot, q, hn⟩

theorem Links.idle (h : t.Links n) (ht : t.Valid) : n.lock.Idle := by
  obtain ⟨isRoot, q, stem, hholds, -⟩ := h.valid ht
  exact hholds.idle

theorem Links.owns (h : t.Links n) : (Node.inner t.root).Owns n.id := by
  obtain ⟨q, hreach⟩ := h
  exact hreach.owns

theorem Valid.exists_links_of_owns (ht : t.Valid) {i : NodeId} (h : (Node.inner t.root).Owns i) :
    ∃ n, t.Links n ∧ n.id = i := by
  obtain ⟨n, q, hreach, hid⟩ := ht.exists_reaches_of_owns h
  exact ⟨n, ⟨q, hreach⟩, hid⟩

/-- A node that was linked still is, or is the one that is reported as unlinked. -/
theorem Edited.links_or_retired (h : t.Edited key o u r) (ht : t.Valid) (hn : t.Links n) :
    (∃ m, u.Links m ∧ m.id = n.id) ∨ r = some n.retired := by
  obtain ⟨q, hreach⟩ := hn
  rcases h.edit.linked_or_retired ht hreach with ⟨c, hc, howns⟩ | hretired
  · cases hc
    exact Or.inl (h.valid.exists_links_of_owns howns)
  · exact Or.inr hretired

/-- What is reported as unlinked was linked, and is not linked any more. -/
theorem Edited.unlinks (h : t.Edited key o u (some x)) (ht : t.Valid) (hnum : t.Numbered) :
    (∃ n, t.Links n ∧ x = n.retired) ∧ ∀ m, u.Links m → m.id ≠ x.id := by
  have hfresh : ¬ (Node.inner t.root).Owns t.nextId := fun hi => lt_irrefl _ (hnum.lt_nextId _ hi)
  obtain ⟨howns, hgone⟩ := h.edit.unlinked hnum.distinct hfresh
  have hnot : ∀ m, u.Links m → m.id ≠ x.id := fun m hm hid => hgone _ rfl (hid ▸ hm.owns)
  obtain ⟨n, hn, hid⟩ := ht.exists_links_of_owns howns
  refine ⟨⟨n, hn, ?_⟩, hnot⟩
  rcases h.links_or_retired ht hn with ⟨m, hm, hmid⟩ | hx
  · exact absurd (hmid.trans hid) (hnot m hm)
  · exact Option.some_inj.1 hx

end Tree

/-! ### Locks after an operation -/

/-- The lock of the node called `i` when an operation is over, whether the node is linked then or was
    unlinked by the operation. -/
def Written.lock? (w : Written V) (i : NodeId) : Option VersionLock :=
  match w.retired with
  | some x => if x.id = i then some x.lock else (w.tree.word? i).map VersionLock.mk
  | none => (w.tree.word? i).map VersionLock.mk

/-- The node that was reached on `q` is reached there in `u` as well and is unchanged. -/
def Branch.Stands (n : Inner V) (q : Key) (u : Tree V) : Prop :=
  ∃ m, u.root.Reaches [] m q ∧ m.id = n.id ∧ n.Unchanged q m q

/-- The lock has gone through one more write section than the one of `n`, and says whether the node
    is linked in `u`. -/
structure Branch.Passed (n : Inner V) (u : Tree V) (lock : VersionLock) : Prop where
  counter_eq : lock.counter = (n.lock.counter + 1) % 2 ^ 62
  not_locked : lock.isLocked = false
  obsolete_iff : lock.isObsolete = true ↔ ¬ ∃ m q, u.root.Reaches [] m q ∧ m.id = n.id

/-- The locks that an operation on `t` leaves behind account for all nodes that were linked. -/
def Written.Accounts (w : Written V) (t : Tree V) : Prop :=
  ∀ n q, t.root.Reaches [] n q → ∃ lock, w.lock? n.id = some lock ∧
    (lock.word = n.lock.word ∧ n.Stands q w.tree ∨ n.Passed w.tree lock)

namespace Tree

variable {t u : Tree V} {n m : Inner V} {q p : Key} {w : Written V}

theorem Edited.lock?_of_links (h : t.Edited key o w.tree w.retired) (ht : t.Valid)
    (hnum : t.Numbered) (hm : w.tree.Links m) : w.lock? m.id = some m.lock := by
  have hword : (w.tree.word? m.id).map VersionLock.mk = some m.lock := by
    obtain ⟨p, hreach⟩ := hm
    rw [h.valid.word?_of_reaches (h.numbered hnum) hreach]
    rfl
  unfold Written.lock?
  cases hr : w.retired with
  | none => exact hword
  | some x =>
    rw [hr] at h
    have hne : x.id ≠ m.id := ((h.unlinks ht hnum).2 m hm).symm
    exact (if_neg hne).trans hword

/-- A node that is still linked went on from itself, in one write section or in none. -/
theorem Edited.stands_or_passed (h : t.Edited key o u r) (ht : t.Valid) (hnum : t.Numbered)
    (hn : t.root.Reaches [] n q) (hm : u.root.Reaches [] m p) (hid : m.id = n.id) :
    m.lock.word = n.lock.word ∧ n.Stands q u ∨ n.Passed u m.lock := by
  have hidle : n.lock.Idle := Links.idle ⟨q, hn⟩ ht
  rcases (h.evolves ht).newOrOld m p hm with ⟨hnew, -⟩ | ⟨k, r, hk, hcont⟩
  · exact absurd (hid.symm.trans hnew) (ne_of_lt (hnum.lt_nextId _ hn.owns))
  · obtain ⟨rfl, rfl⟩ := hk.eq_of_id hn hnum.distinct (hcont.id_eq.symm.trans hid)
    rcases hcont.change with hstep | hsame
    · refine Or.inr ⟨?_, ?_, ?_⟩
      · rw [hstep]
        exact k.lock.counter_stepped
      · rw [hstep]
        exact hidle.stepped.not_locked
      · rw [hstep, hidle.stepped.not_obsolete]
        exact iff_of_false Bool.false_ne_true (not_not_intro ⟨m, p, hm, hid⟩)
    · have hp := hsame.path_eq
      subst hp
      exact Or.inl ⟨congrArg VersionLock.word hsame.lock_eq, m, hm, hid, hsame⟩

/-- An unlinked node went through a last write section, after which it is obsolete. -/
theorem Links.passed_ended (hn : t.Links n) (ht : t.Valid)
    (hgone : ∀ m, u.Links m → m.id ≠ n.id) : n.Passed u n.lock.ended where
  counter_eq := (hn.idle ht).counter_ended
  not_locked := (hn.idle ht).ended_not_locked
  obsolete_iff := by
    refine iff_of_true (hn.idle ht).ended_obsolete ?_
    rintro ⟨m, p, hm, hid⟩
    exact hgone m ⟨p, hm⟩ hid

theorem Edited.accounts (h : t.Edited key o w.tree w.retired) (ht : t.Valid) (hnum : t.Numbered) :
    w.Accounts t := by
  intro n q hn
  have hlinks : t.Links n := ⟨q, hn⟩
  rcases h.links_or_retired ht hlinks with ⟨m, hm, hid⟩ | hr
  · refine ⟨m.lock, hid ▸ h.lock?_of_links ht hnum hm, ?_⟩
    obtain ⟨p, hreach⟩ := hm
    exact h.stands_or_passed ht hnum hn hreach hid
  · refine ⟨n.lock.ended, ?_, Or.inr (hlinks.passed_ended ht ?_)⟩
    · unfold Written.lock?
      rw [hr]
      exact if_pos rfl
    · rw [hr] at h
      exact (h.unlinks ht hnum).2

/-- An operation that has nothing to do leaves all nodes as they are. -/
theorem Valid.accounts_unchanged (ht : t.Valid) (hnum : t.Numbered) (found : Option V) :
    (⟨t, found, none, none, none⟩ : Written V).Accounts t := by
  intro n q hreach
  refine ⟨n.lock, ?_, Or.inl ⟨rfl, n, hreach, rfl, Branch.Unchanged.refl n q⟩⟩
  show (t.word? n.id).map VersionLock.mk = some n.lock
  rw [ht.word?_of_reaches hnum hreach]
  rfl

theorem Valid.insert_accounts (ht : t.Valid) (hnum : t.Numbered) (key : Key) (value : V) :
    (t.insert key value).Accounts t := by
  obtain ⟨-, -, hedit, -⟩ := ht.insert key value
  exact hedit.accounts ht hnum

theorem Valid.getOrInsert_accounts (ht : t.Valid) (hnum : t.Numbered) (key : Key)
    (make : Unit → V) : (t.getOrInsert key make).written.Accounts t := by
  obtain ⟨-, hcase⟩ := ht.getOrInsert key make
  cases hget : t.get? key with
  | some found =>
    rw [getOrInsert_of_some hget]
    exact ht.accounts_unchanged hnum _
  | none =>
    rw [hget] at hcase
    exact hcase.2.2.1.accounts ht hnum

theorem Valid.remove_accounts (ht : t.Valid) (hnum : t.Numbered) (key : Key) :
    (t.remove key).Accounts t := by
  obtain ⟨-, -, hcase⟩ := ht.remove key
  cases hget : t.get? key with
  | none =>
    rw [hget] at hcase
    rw [hcase]
    exact ht.accounts_unchanged hnum _
  | some v =>
    rw [hget] at hcase
    exact hcase.1.accounts ht hnum

end Tree

/-! ### Scripts -/

namespace TreeScript

variable {st : State V} {key : Key}

/-- Asking to store a key that is stored changes nothing at all. -/
theorem State.step_getOrInsert_of_stored (value : V) (h : (st.tree.get? key).isSome) :
    (st.step (.getOrInsert key value)).1 = st := by
  obtain ⟨found, hget⟩ := Option.isSome_iff_exists.1 h
  show st.write (st.tree.getOrInsert key fun _ => value).written = st
  rw [Tree.getOrInsert_of_some hget]
  rfl

/-- Removing a key that is not stored changes nothing at all. -/
theorem State.step_remove_of_absent (hvalid : st.tree.Valid) (h : st.tree.get? key = none) :
    (st.step (.remove key)).1 = st := by
  obtain ⟨-, -, hcase⟩ := hvalid.remove key
  rw [h] at hcase
  show st.write (st.tree.remove key) = st
  rw [show st.tree.remove key = ⟨st.tree, none, none, none, none⟩ from hcase]
  rfl

/-- The locks that the next operation leaves behind account for all nodes, and an operation that has
    nothing to do changes nothing. -/
structure State.LocksTell (st : State V) : Prop where
  insert : ∀ key value, (st.tree.insert key value).Accounts st.tree
  getOrInsert : ∀ key value, (st.tree.getOrInsert key fun _ => value).written.Accounts st.tree
  remove : ∀ key, (st.tree.remove key).Accounts st.tree
  stored_already : ∀ key value, (st.tree.get? key).isSome →
    (st.step (.getOrInsert key value)).1 = st
  not_stored : ∀ key, st.tree.get? key = none → (st.step (.remove key)).1 = st

/-- However a tree was changed before, starting empty, the lock words of its nodes tell what becomes
    of them. -/
theorem exec_locks_tell (ops : List (Op V)) : (exec (start : State V) ops).LocksTell := by
  obtain ⟨hvalid, hnum⟩ := exec_start_numbered ops
  exact ⟨hvalid.insert_accounts hnum, fun key _ => hvalid.getOrInsert_accounts hnum key _,
    hvalid.remove_accounts hnum, fun _ value => State.step_getOrInsert_of_stored value,
    fun _ => State.step_remove_of_absent hvalid⟩

end TreeScript

end RadixStore
