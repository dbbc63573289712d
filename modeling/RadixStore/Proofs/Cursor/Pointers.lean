import Mathlib
import RadixStore.Proofs.Cursor.Turns
import RadixStore.Proofs.Lock.Validation
import RadixStore.Proofs.Tree.LockWords

/-!
# What a checkpoint points at

The node of a checkpoint is sought by its identity and its path in the tree as it is. A cursor that
holds pointers does not search: it compares the lock word of the node that it points at with the one
it saw, whether the node is still linked or not. A node that was unlinked is not changed any more, so
its word is the one with which it was unlinked.

The nodes that a run unlinks are listed here together with their locks, so that the lock behind a
pointer is known. An unlinked node never comes back and stays obsolete, while whatever a cursor has
entered was linked and was not obsolete. So a checkpoint on a node that is gone holds by neither
standard; and on a node that is linked the two agree as long as no word comes round again.
-/

namespace RadixStore

variable {V : Type}

/-! ### Nodes that a cursor comes to -/

namespace Tree

variable {t u : Tree V} {n m : Inner V} {dir : Direction}

theorem Links.of_load {b : UInt8} (h : t.Links n) (ht : t.Valid)
    (hload : n.load (.byte b) = some (.inner m)) : t.Links m := by
  obtain ⟨q, hreach⟩ := h
  obtain ⟨isRoot, hn⟩ := hreach.valid ht
  obtain ⟨stem, hholds, hstem⟩ := hn.exists_stem
  exact ⟨_, hreach.trans (.child hstem hload .here)⟩

theorem Links.of_entryPast {pos p : Int} (h : t.Links n) (ht : t.Valid)
    (hnext : n.entryPast dir pos = some (p, .inner m)) : t.Links m := by
  obtain ⟨q, hreach⟩ := h
  obtain ⟨isRoot, hn⟩ := hreach.valid ht
  obtain ⟨r, hbelow, -, -⟩ := hn.of_entryPast hnext
  exact ⟨r, hreach.trans hbelow⟩

theorem links_of_resolve {cp : Checkpoint} (ht : t.Valid) (h : t.resolve cp = .ok n) :
    t.Links n ∧ n.id = cp.id := by
  obtain ⟨hfind, -⟩ := resolve_eq_ok h
  obtain ⟨q, hreach, -, hid⟩ := Branch.Valid.exists_reaches_of_find? ht hfind
  exact ⟨⟨q, hreach⟩, hid⟩

end Tree

/-! ### What is true of all checkpoints

A call makes checkpoints on linked nodes only, with the words that these have then; of the checkpoints
that it was given it changes the positions at most. So whatever is true of the given ones and of all
linked nodes is true of the checkpoints that the call leaves behind. -/

/-- `Q` is true of the node behind every checkpoint and the word that was seen there. -/
def Carries (Q : NodeId → Snapshot → Prop) (stack : List Checkpoint) : Prop :=
  ∀ cp ∈ stack, Q cp.id cp.seen

/-- `Q` is true of every linked node and its word. -/
def Tree.Grants (t : Tree V) (Q : NodeId → Snapshot → Prop) : Prop :=
  ∀ n, t.Links n → Q n.id ⟨n.lock.word⟩

section

variable {t : Tree V} {Q : NodeId → Snapshot → Prop} {dir : Direction} {n : Inner V} {path : Key}
  {seen : Snapshot} {stack fresh : List Checkpoint}

theorem Carries.cons {cp : Checkpoint} (hcp : Q cp.id cp.seen) (h : Carries Q stack) :
    Carries Q (cp :: stack) :=
  List.forall_mem_cons.2 ⟨hcp, h⟩

theorem carries_append (hfresh : Carries Q fresh) (h : Carries Q stack) :
    Carries Q (fresh ++ stack) :=
  List.forall_mem_append.2 ⟨hfresh, h⟩

theorem Branch.carries_firstLeaf? (ht : t.Valid) (hQ : t.Grants Q) {n : Inner V} {path : Key}
    {seen : Snapshot} {pos : Int} {stack : List Checkpoint} (hn : t.Links n) (hseen : Q n.id seen)
    (hstack : Carries Q stack) {f : Found V} (h : n.firstLeaf? dir path seen pos stack = some f) :
    Carries Q f.stack := by
  rw [Branch.firstLeaf?] at h
  split at h
  · cases h
  · cases h
    exact .cons hseen hstack
  · rename_i p m hnext
    have hsize := sizeOf_lt_of_entryPast hnext
    have hm := hn.of_entryPast ht hnext
    obtain ⟨isRoot, q, hvalid⟩ := hm.valid ht
    rw [hvalid.liveSnapshot] at h
    exact carries_firstLeaf? ht hQ hm (hQ m hm) (.cons hseen hstack) h
termination_by sizeOf n

theorem Branch.carries_seek (ht : t.Valid) (hQ : t.Grants Q) {bound : Key} {depth : Nat}
    (hn : t.Links n) (hseen : Q n.id seen) (hstack : Carries Q stack)
    (h : n.seek dir bound depth seen stack = .ok fresh) : Carries Q fresh := by
  fun_induction Branch.seek dir bound n depth seen stack generalizing fresh with
  | case1 | case8 => cases h
  | case2 | case3 =>
    cases h
    split
    · exact .cons hseen hstack
    · exact hstack
  | case4 | case6 | case7 =>
    cases h
    exact .cons hseen hstack
  | case5 =>
    cases h
    exact hstack
  | case9 n depth seen stack stem _ _ _ b _ pos m hload seenBelow hsnapshot =>
    rename_i ih
    have hm := hn.of_load ht hload
    obtain ⟨isRoot, q, hvalid⟩ := hm.valid ht
    rw [hvalid.liveSnapshot] at hsnapshot
    cases hsnapshot
    exact ih hm (hQ m hm) (.cons hseen hstack) h

theorem Branch.carries_seekFrom (ht : t.Valid) (hQ : t.Grants Q) {bound : Option Key}
    (hn : t.Links n) (hseen : Q n.id seen) (hstack : Carries Q stack)
    (h : n.seekFrom dir bound path seen stack = .ok fresh) : Carries Q fresh := by
  cases bound with
  | none =>
    cases h
    exact .cons hseen hstack
  | some bound => exact carries_seek ht hQ hn hseen hstack h

theorem Tree.carries_seek (ht : t.Valid) (hQ : t.Grants Q) {bound : Option Key}
    (h : t.seek dir bound = .ok fresh) : Carries Q fresh := by
  unfold Tree.seek at h
  rw [Branch.Valid.liveSnapshot ht] at h
  exact Branch.carries_seekFrom ht hQ t.links_root (hQ _ t.links_root) (List.forall_mem_nil _) h

theorem Tree.carries_firstAfter? (dir : Direction) (ht : t.Valid) (hQ : t.Grants Q)
    (hstack : Carries Q stack) (hfresh : Carries Q fresh) :
    Carries Q (left (t.firstAfter? dir stack fresh)) := by
  induction fresh with
  | nil => exact List.forall_mem_nil _
  | cons cp fresh ih =>
    obtain ⟨hcp, hfresh⟩ := List.forall_mem_cons.1 hfresh
    unfold Tree.firstAfter?
    split
    · exact ih hfresh
    · rename_i n hresolve
      obtain ⟨hn, hid⟩ := links_of_resolve ht hresolve
      split
      · rename_i f hf
        exact Branch.carries_firstLeaf? ht hQ hn (hid ▸ hcp) (carries_append hfresh hstack) hf
      · exact ih hfresh

/-- Going on and recovering keep what is true of all checkpoints. The two functions call each other, so
    one induction on the stack goes for both. -/
theorem Tree.carries_advance_and_recover (dir : Direction) (bound : Option Key) (ht : t.Valid)
    (hQ : t.Grants Q) (hstack : Carries Q stack) :
    Carries Q (left (t.advance dir bound stack).1) ∧
      Carries Q (left (t.recover dir bound stack).1) := by
  induction stack with
  | nil =>
    rw [Tree.advance, Tree.recover]
    refine ⟨List.forall_mem_nil _, ?_⟩
    split
    · exact List.forall_mem_nil _
    · rename_i fresh hfresh
      exact carries_firstAfter? dir ht hQ (List.forall_mem_nil _) (carries_seek ht hQ hfresh)
  | cons cp stack ih =>
    obtain ⟨hcp, hrest⟩ := List.forall_mem_cons.1 hstack
    obtain ⟨hadvance, hrecover⟩ := ih hrest
    rw [Tree.advance, Tree.recover]
    cases hresolve : t.resolve cp with
    | error e => exact ⟨hrecover, hrecover⟩
    | ok n =>
      obtain ⟨hn, hid⟩ := links_of_resolve ht hresolve
      have hseen : Q n.id cp.seen := hid ▸ hcp
      dsimp only
      refine ⟨?_, ?_⟩
      · split
        · rename_i f hf
          exact Branch.carries_firstLeaf? ht hQ hn hseen hrest hf
        · exact hadvance
      · split
        · exact hrecover
        · rename_i fresh hfresh
          have hnew := Branch.carries_seekFrom ht hQ hn hseen (List.forall_mem_nil _) hfresh
          have hfirst := carries_firstAfter? dir ht hQ hrest hnew
          split
          · rename_i f hf
            rw [hf] at hfirst
            exact hfirst
          · exact hadvance

end

namespace Cursor

variable {t : Tree V} {Q : NodeId → Snapshot → Prop} {c : Cursor}

theorem carries_next (ht : t.Valid) (hQ : t.Grants Q) (h : Carries Q c.stack) :
    Carries Q (c.next t).cursor.stack := by
  unfold Cursor.next
  split
  · exact h
  · split
    · exact List.forall_mem_nil _
    · rename_i stack hready
      have hstack : Carries Q stack := by
        unfold ready at hready
        split at hready
        · cases hready
          exact h
        · exact Tree.carries_seek ht hQ hready
      have hfound := (Tree.carries_advance_and_recover c.dir c.resumeBound ht hQ hstack).1
      split
      · exact List.forall_mem_nil _
      · rename_i f recoveries hf
        rw [hf] at hfound
        split
        · exact List.forall_mem_nil _
        · exact hfound

theorem carries_nexts (ht : t.Valid) (hQ : t.Grants Q) (h : Carries Q c.stack) (count : Nat) :
    Carries Q (c.nexts t count).2.1.stack := by
  induction count generalizing c with
  | zero => exact h
  | succ count ih => exact ih (carries_next ht hQ h)

end Cursor

/-! ### Nodes that are gone -/

namespace Tree

variable {t u : Tree V} {n m : Inner V} {key : Key} {o : Option V} {r : Option Retired} {x : Retired}
  {gone : List Retired} {i : NodeId} {seen : Snapshot}

/-- What is linked is new or was linked before. -/
theorem Evolves.links (he : t.Evolves u) (hm : u.Links m) :
    m.id = t.nextId ∨ ∃ n, t.Links n ∧ n.id = m.id := by
  obtain ⟨q, hreach⟩ := hm
  rcases he.newOrOld m q hreach with ⟨hnew, -⟩ | ⟨k, p, hk, hcont⟩
  · exact Or.inl hnew
  · exact Or.inr ⟨k, ⟨p, hk⟩, hcont.id_eq.symm⟩

/-- The nodes in `gone` were linked once and are not linked any more; no identity occurs twice, and all
    are obsolete. -/
structure Gone (t : Tree V) (gone : List Retired) : Prop where
  distinct : (gone.map Retired.id).Nodup
  used : ∀ x ∈ gone, x.id < t.nextId
  unlinked : ∀ x ∈ gone, ∀ n, t.Links n → n.id ≠ x.id
  obsolete : ∀ x ∈ gone, x.lock.isObsolete = true

theorem gone_nil (t : Tree V) : t.Gone [] where
  distinct := List.nodup_nil
  used := List.forall_mem_nil _
  unlinked := List.forall_mem_nil _
  obsolete := List.forall_mem_nil _

theorem Gone.evolves (h : t.Gone gone) (he : t.Evolves u) : u.Gone gone where
  distinct := h.distinct
  used x hx := (h.used x hx).trans_le he.nextId_le
  unlinked x hx m hm hid := by
    rcases he.links hm with hnew | ⟨n, hn, hnid⟩
    · exact ne_of_lt (h.used x hx) (hid.symm.trans hnew)
    · exact h.unlinked x hx n hn (hnid.trans hid)
  obsolete := h.obsolete

/-- An edit adds the node that it unlinks. -/
theorem Gone.edited (h : t.Gone gone) (hedit : t.Edited key o u r) (ht : t.Valid)
    (hnum : t.Numbered) : u.Gone (r.toList ++ gone) := by
  have hafter := h.evolves (hedit.evolves ht)
  cases r with
  | none => exact hafter
  | some x =>
    obtain ⟨⟨n, hn, rfl⟩, hnot⟩ := hedit.unlinks ht hnum
    have hlt : n.id < u.nextId := (hnum.lt_nextId _ hn.owns).trans_le (hedit.evolves ht).nextId_le
    have hnew : n.id ∉ gone.map Retired.id := by
      intro hmem
      obtain ⟨x, hx, hid⟩ := List.mem_map.1 hmem
      exact h.unlinked x hx n hn hid.symm
    exact ⟨List.nodup_cons.2 ⟨hnew, h.distinct⟩, List.forall_mem_cons.2 ⟨hlt, hafter.used⟩,
      List.forall_mem_cons.2 ⟨hnot, hafter.unlinked⟩,
      List.forall_mem_cons.2 ⟨(hn.idle ht).ended_obsolete, hafter.obsolete⟩⟩

/-- The node called `i` is linked or among those that are gone, and `seen` is from the time before it
    was obsolete. -/
def Knows (t : Tree V) (gone : List Retired) (i : NodeId) (seen : Snapshot) : Prop :=
  seen.isObsolete = false ∧ ((∃ n, t.Links n ∧ n.id = i) ∨ ∃ x ∈ gone, x.id = i)

theorem Valid.grants_knows (ht : t.Valid) (gone : List Retired) : t.Grants (t.Knows gone) :=
  fun n hn => ⟨(hn.idle ht).not_obsolete, Or.inl ⟨n, hn, rfl⟩⟩

theorem Knows.edited (h : t.Knows gone i seen) (hedit : t.Edited key o u r) (ht : t.Valid) :
    u.Knows (r.toList ++ gone) i seen := by
  obtain ⟨hseen, ⟨n, hn, rfl⟩ | ⟨x, hx, rfl⟩⟩ := h
  · rcases hedit.links_or_retired ht hn with hlinked | rfl
    · exact ⟨hseen, Or.inl hlinked⟩
    · exact ⟨hseen, Or.inr ⟨n.retired, List.mem_cons_self, rfl⟩⟩
  · exact ⟨hseen, Or.inr ⟨x, List.mem_append_right _ hx, rfl⟩⟩

end Tree

/-! ### Runs -/

namespace TreeScript

/-- The nodes that a run unlinks, the last one first. -/
def retirements : State V → List (Op V) → List Retired
  | _, [] => []
  | st, op :: ops => retirements (st.step op).1 ops ++ (st.retired? op).toList

namespace State

variable {st : State V} {gone : List Retired}

/-- What is known of the nodes that are gone, and of those that cursors have entered. -/
structure Remembers (st : State V) (gone : List Retired) : Prop where
  valid : st.tree.Valid
  numbered : st.tree.Numbered
  lost : st.tree.Gone gone
  known : ∀ name c, st.cursors.find name = some c → Carries (st.tree.Knows gone) c.stack

theorem remembers_start : (start : State V).Remembers [] where
  valid := Tree.valid_empty
  numbered := Tree.numbered_empty
  lost := Tree.gone_nil _
  known name c h := by cases h

theorem Remembers.step (h : st.Remembers gone) (op : Op V) :
    (st.step op).1.Remembers ((st.retired? op).toList ++ gone) := by
  obtain ⟨hvalid, hnum, -⟩ := step_evolves h.valid h.numbered op
  have htree : (st.step op).1.tree.Gone ((st.retired? op).toList ++ gone) ∧
      ∀ i seen, st.tree.Knows gone i seen →
        (st.step op).1.tree.Knows ((st.retired? op).toList ++ gone) i seen := by
    rcases step_tree h.valid op with ⟨hsame, hnone⟩ | ⟨key, o, hedit⟩
    · rw [hsame, hnone]
      exact ⟨h.lost, fun i seen hknown => hknown⟩
    · exact ⟨h.lost.edited hedit h.valid h.numbered,
        fun i seen hknown => hknown.edited hedit h.valid⟩
  refine ⟨hvalid, hnum, htree.1, ?_⟩
  intro name d hd
  rcases find_step st op hd with hold | ⟨lower, upper, rfl⟩ | ⟨c, rfl⟩ | ⟨c, n, hc, -, rfl⟩
  · exact fun cp hcp => htree.2 _ _ (h.known name d hold cp hcp)
  · exact List.forall_mem_nil _
  · exact List.forall_mem_nil _
  · exact fun cp hcp => htree.2 _ _
      (Cursor.carries_nexts h.valid (h.valid.grants_knows gone) (h.known name c hc) n cp hcp)

theorem Remembers.exec (h : st.Remembers gone) (ops : List (Op V)) :
    (exec st ops).Remembers (retirements st ops ++ gone) := by
  induction ops generalizing st gone with
  | nil => exact h
  | cons op ops ih =>
    have hrest := ih (h.step op)
    rw [← List.append_assoc] at hrest
    exact hrest

end State

end TreeScript

/-! ### The lock behind a pointer -/

namespace Tree

variable {t : Tree V} {n : Inner V} {gone : List Retired} {x : Retired} {cp : Checkpoint}

/-- The lock of the node called `i`: the one with which it was unlinked, or the one that it has in the
    tree. -/
def lockAt? (t : Tree V) (gone : List Retired) (i : NodeId) : Option VersionLock :=
  match gone.find? fun x => x.id = i with
  | some x => some x.lock
  | none => (t.word? i).map VersionLock.mk

theorem Gone.lockAt?_of_mem (h : t.Gone gone) (hx : x ∈ gone) :
    t.lockAt? gone x.id = some x.lock := by
  unfold lockAt?
  cases hfind : gone.find? fun y => y.id = x.id with
  | none => exact absurd (decide_eq_true rfl) (List.find?_eq_none.1 hfind x hx)
  | some y =>
    have hfound := List.find?_some hfind
    have hid : y.id = x.id := of_decide_eq_true hfound
    rw [List.inj_on_of_nodup_map h.distinct (List.mem_of_find?_eq_some hfind) hx hid]

theorem Gone.lockAt?_of_links (h : t.Gone gone) (ht : t.Valid) (hnum : t.Numbered)
    (hn : t.Links n) : t.lockAt? gone n.id = some n.lock := by
  have hnone : (gone.find? fun x => x.id = n.id) = none :=
    List.find?_eq_none.2 fun x hx hid => h.unlinked x hx n hn (of_decide_eq_true hid).symm
  obtain ⟨q, hreach⟩ := hn
  unfold lockAt?
  rw [hnone, ht.word?_of_reaches hnum hreach]
  rfl

/-- A node that is gone is not come to, and its lock is obsolete, while the word that was seen was
    not. -/
theorem Gone.resolve_iff_of_mem (h : t.Gone gone) (ht : t.Valid) (hx : x ∈ gone)
    (hid : x.id = cp.id) (hseen : cp.seen.isObsolete = false) :
    (∃ n, t.resolve cp = .ok n) ↔ x.lock.word = cp.seen.word := by
  refine iff_of_false ?_ ?_
  · rintro ⟨n, hn⟩
    obtain ⟨hlinks, hnid⟩ := links_of_resolve ht hn
    exact h.unlinked x hx n hlinks (hnid.trans hid.symm)
  · exact VersionLock.word_ne_of_obsolete (h.obsolete x hx) hseen

/-- A node that is linked is come to when its word is the one that was seen. -/
theorem Links.resolve_iff (hn : t.Links n) (ht : t.Valid) (hnum : t.Numbered) (hid : n.id = cp.id)
    (hstands : cp.Expired t ∨ ∃ m, cp.At t m) :
    (∃ m, t.resolve cp = .ok m) ↔ n.lock.word = cp.seen.word := by
  obtain ⟨q, hreach⟩ := hn
  rcases hstands with hexpired | ⟨m, hat⟩
  · obtain ⟨e, he⟩ := hexpired.resolve ht
    have hlt := hexpired n q hreach hid
    refine iff_of_false ?_ ?_
    · rintro ⟨m, hm⟩
      rw [he] at hm
      cases hm
    · intro hword
      rw [hword] at hlt
      exact lt_irrefl _ hlt
  · obtain ⟨rfl, -⟩ := hreach.eq_of_id hat.reached hnum.distinct (hid.trans hat.id_eq.symm)
    exact iff_of_true ⟨n, hat.resolve ht⟩ hat.word_eq

end Tree

theorem Trail.expired_or_at {t : Tree V} {target : Target} {stack : List Checkpoint}
    (h : Trail t target stack) : ∀ cp ∈ stack, cp.Expired t ∨ ∃ n, cp.At t n := by
  induction h with
  | root => exact List.forall_mem_nil _
  | step _ _ hholds _ ih =>
    refine List.forall_mem_cons.2 ⟨?_, ih⟩
    exact hholds.imp_right fun ⟨n, hat, _⟩ => ⟨n, hat⟩

/-- A cursor has checkpoints only while it is under way. -/
theorem Cursor.InLine.expired_or_at {t : Tree V} {c : Cursor} (h : c.InLine t) (hsound : c.Sound t) :
    ∀ cp ∈ c.stack, cp.Expired t ∨ ∃ n, cp.At t n := by
  cases hsound with
  | finished hdone =>
    rw [h.stack_of_done hdone]
    exact List.forall_mem_nil _
  | unstarted _ hstarted _ =>
    rw [h.stack_of_unstarted hstarted]
    exact List.forall_mem_nil _
  | underWay _ _ _ htrail => exact htrail.expired_or_at

namespace TreeScript

/-- What a run has unlinked stays as it is: it is not linked again, and its lock is granted to
    nobody. -/
theorem retirements_stay (ops : List (Op V)) {x : Retired}
    (hx : x ∈ retirements (start : State V) ops) :
    (∀ n, (exec start ops).tree.Links n → n.id ≠ x.id) ∧
      ∀ v, ¬ ∃ held, x.lock.upgrade v = .ok held := by
  have hlost := (State.remembers_start.exec ops).lost
  rw [List.append_nil] at hlost
  exact ⟨hlost.unlinked x hx, VersionLock.not_upgrade_of_obsolete (hlost.obsolete x hx)⟩

/-- Searching a checkpoint in the tree is as good as following a pointer. Take any run in which no node
    is write-locked 2 ^ 62 times, and any checkpoint of a cursor that is open after it. There is a lock
    behind the pointer, that of the node in the tree or the one with which the run unlinked it. The
    checkpoint is found in the tree if and only if the snapshot that the cursor took is still valid for
    this lock; and what is found then is the node with this identity and this lock. -/
theorem resolve_iff_validate (ops : List (Op V)) {name : String} {c : Cursor} {cp : Checkpoint}
    (hlocks : ∀ i, writeSections i (start : State V) ops < 2 ^ 62)
    (hc : (exec (start : State V) ops).cursors.find name = some c) (hcp : cp ∈ c.stack) :
    ∃ lock, (exec start ops).tree.lockAt? (retirements start ops) cp.id = some lock ∧
      ((∃ n, (exec start ops).tree.resolve cp = .ok n) ↔ lock.validate cp.seen = .ok ()) ∧
      ∀ n, (exec start ops).tree.resolve cp = .ok n → n.id = cp.id ∧ n.lock = lock := by
  have hmemory := State.remembers_start.exec ops
  have hsound := State.sound_start.exec ops (by simpa using hlocks)
  rw [List.append_nil] at hmemory
  have hstands := (exec_start_inLine ops hc).expired_or_at (hsound.cursors name c hc) cp hcp
  obtain ⟨lock, hlock, hiff⟩ : ∃ lock,
      (exec start ops).tree.lockAt? (retirements start ops) cp.id = some lock ∧
        ((∃ n, (exec start ops).tree.resolve cp = .ok n) ↔ lock.word = cp.seen.word) := by
    obtain ⟨hseen, ⟨n, hn, hid⟩ | ⟨x, hx, hid⟩⟩ := hmemory.known name c hc cp hcp
    · exact ⟨n.lock, hid ▸ hmemory.lost.lockAt?_of_links hmemory.valid hmemory.numbered hn,
        hn.resolve_iff hmemory.valid hmemory.numbered hid hstands⟩
    · exact ⟨x.lock, hid ▸ hmemory.lost.lockAt?_of_mem hx,
        hmemory.lost.resolve_iff_of_mem hmemory.valid hx hid hseen⟩
  refine ⟨lock, hlock, hiff.trans VersionLock.validate_eq_ok_iff.symm, ?_⟩
  intro n hn
  obtain ⟨hlinks, hid⟩ := Tree.links_of_resolve hmemory.valid hn
  have hsame := hmemory.lost.lockAt?_of_links hmemory.valid hmemory.numbered hlinks
  rw [hid, hlock] at hsame
  exact ⟨hid, (Option.some_inj.1 hsame).symm⟩

/-- A cursor stands below two inner nodes when the lower one is unlinked: that one is gone, the one
    above it was changed by that, and the root was not. -/
example :
    let ops : List (Op Nat) := [.insert [1, 2, 1] 1, .insert [1, 2, 2] 2, .insert [1, 3] 3,
      .openCursor "c" none none, .next "c" 1, .remove [1, 2, 2]]
    ((exec start ops).cursors.find "c").map (fun c => c.stack.map fun cp =>
      (((exec start ops).tree.lockAt? (retirements start ops) cp.id).map VersionLock.isObsolete,
        (exec start ops).tree.isStale cp)) =
      some [(some true, true), (some false, true), (some false, false)] := by decide +kernel

end TreeScript

end RadixStore
