import Mathlib
import RadixStore.Proofs.Store.Updates

/-!
# The reads of a run

A read is recorded on the version that the reader comes to, whether the version is shown or held by
somebody else. The stamps are made of these reads and of nothing else: whoever is to supersede a
version has to get past every read of it in the whole run, and past nothing besides.
-/

namespace RadixStore

variable {V : Type}

/-! ### Operations that record no reads -/

namespace Store

variable {s s' : Store V} {t : Txn V}

/-- Every chain of `s'` has its stamps from that of `s`. -/
def Inherits (s s' : Store V) : Prop :=
  ∀ key, (s.chain key).Inherits (s'.chain key)

theorem inherits_set (hs : s.index.Valid) (t : Txn V) (key : Key) (value : V) :
    s.Inherits (s.set t key value).store := by
  have hone : ∀ {c : Chain V}, (s.chain key).Inherits c → ∀ k,
      (s.chain k).Inherits (Function.update s.chain key c k) := by
    intro c hc k
    by_cases hk : k = key
    · subst hk
      rwa [Function.update_self]
    · rw [Function.update_of_ne hk]
      exact .refl _
  intro k
  obtain ⟨-, ⟨e, -, -, hchain⟩ | ⟨c, i, -, -, hok, -, hchain⟩ | ⟨p, c, i, -, -, hok, -, hchain⟩⟩ :=
    set_cases hs t key value
  · rw [hchain]
    exact .refl _
  · rw [hchain]
    exact hone (Chain.inherits_install hok) k
  · rw [hchain]
    exact hone (Chain.inherits_supersede hok) k

theorem inherits_discard (hs : s.index.Valid) (hw : (t.writes.map Prod.fst).Nodup) :
    s.Inherits (s.discard t) := by
  intro k
  rw [discard_eq]
  show (s.chain k).Inherits ((s.withdraw t.writes).chain k)
  rw [(withdraw_spec hs hw).2 k]
  split
  · exact .refl _
  · exact Chain.inherits_abort _ _

theorem inherits_trimmed (hs : s.index.Valid) (safepoint : Timestamp) (keys : List Key) :
    s.Inherits (keys.foldl (fun s key => (s.trimChain key safepoint).1) s) := by
  intro k
  rcases (foldl_trimChain_spec hs safepoint keys).2 k with hsame | htrim
  · rw [hsame]
    exact .refl _
  · rw [htrim]
    exact Chain.inherits_pruned _ _

theorem inherits_gc (hs : s.index.Valid) : s.Inherits s.gc.1 := by
  unfold Store.gc
  rw [sweepKeys_fst]
  exact inherits_trimmed hs _ _

theorem inherits_commit (hs : s.index.Valid) (hw : (t.writes.map Prod.fst).Nodup)
    (ts : Timestamp) : s.Inherits (s.commit t ts).store := by
  obtain ⟨hrechained, hchain⟩ := publish_spec hs hw ts
  have hpublish : s.Inherits ((s.publish ts t.writes).closeTxn t) := by
    intro k
    show (s.chain k).Inherits ((s.publish ts t.writes).chain k)
    rw [hchain k]
    split
    · exact .refl _
    · exact Chain.inherits_commit _ _ _
  rcases lt_or_ge ts t.readTs with hts | hts
  · rw [commit_of_lt hts]
    exact inherits_discard hs hw
  · rcases (commit_cases hts).2 with hstore | ⟨-, hstore⟩
    · rw [hstore]
      exact hpublish
    · rw [hstore]
      have hvalid : ((s.publish ts t.writes).closeTxn t).index.Valid := hrechained.valid hs
      exact fun k => (hpublish k).trans (inherits_trimmed hvalid _ _ k)

/-! ### Operations that record reads -/

variable {key : Key} {reads : Serial → Timestamp → TxnId → Prop}

theorem admits_get (hs : s.index.Valid) (t : Txn V) (k : Key) (h : (s.chain key).Admits reads)
    (hread : k = key → t.pending? key = none →
      ∀ m ∈ (s.chain key).found? t.readTs, reads m.serial t.readTs t.id) :
    ((s.get t k).2.chain key).Admits reads := by
  cases hp : t.pending? k with
  | some p =>
    rw [get_of_pending hp]
    exact h
  | none =>
    rw [(get_of_free hs hp).2]
    by_cases hk : key = k
    · subst hk
      rw [Function.update_self]
      exact h.look (hread rfl hp)
    · rwa [Function.update_of_ne hk]

/-- A scan records reads on the keys that it comes to. -/
theorem admits_scanUpTo (t : Txn V) (fuel : Nat) (hs : s.index.Valid) (c : Cursor)
    (h : (s.chain key).Admits reads)
    (hread : ∀ v ∈ s.visits t fuel c, v.2 = key → t.pending? key = none →
      ∀ m ∈ (s.chain key).found? t.readTs, reads m.serial t.readTs t.id) :
    ((s.scanUpTo t fuel c).store.chain key).Admits reads := by
  induction fuel generalizing s c with
  | zero => exact h
  | succ fuel ih =>
    unfold visits at hread
    unfold scanUpTo
    dsimp only at hread ⊢
    cases hitem : (c.next s.index).item with
    | none => exact h
    | some l =>
      have hvisit := visit_eq_get (t := t) (Cursor.get?_of_next hs hitem)
      have hvalid := (rechained_get s t l.key).valid hs
      have hmarks := System.marks_of_readBy (readBy_get hs t l.key key)
      rw [hitem] at hread
      dsimp only at hread ⊢
      rw [hvisit] at hread ⊢
      cases hshown : shown l.key (s.get t l.key).1 with
      | some item =>
        rw [hshown] at hread
        exact admits_get hs t l.key h (hread (s, l.key) (List.mem_singleton_self _))
      | none =>
        rw [hshown] at hread
        have hfirst := admits_get hs t l.key h (hread (s, l.key) List.mem_cons_self)
        refine ih hvalid _ hfirst ?_
        rw [Chain.found?_congr hmarks]
        exact fun v hv => hread v (List.mem_cons_of_mem _ hv)

end Store

/-! ### Actions -/

namespace System

variable {sys sys' : System V} {a : Action V} {i j : Nat} {s s' : Store V} {t u : Txn V} {key : Key}
  {reads : Serial → Timestamp → TxnId → Prop}

/-- Every chain of every store of `sys'` has its stamps from that of `sys`. -/
def Inherits (sys sys' : System V) : Prop :=
  ∀ i key, (sys.cell i key).chain.Inherits (sys'.cell i key).chain

theorem chain_setStore (hs : sys.stores[j]? = some s) (s' : Store V) (i : Nat) (key : Key) :
    ((sys.setStore j s').cell i key).chain =
      if i = j then s'.chain key else (sys.cell i key).chain := by
  have hlt : j < sys.stores.length := (List.getElem?_eq_some_iff.1 hs).1
  show (((sys.stores.set j s')[i]?.map fun s => s.chain key).getD .empty) = _
  split
  · rename_i hij
    subst hij
    rw [List.getElem?_set_self hlt]
    rfl
  · rename_i hij
    rw [List.getElem?_set_ne (Ne.symm hij)]
    rfl

theorem Inherits.of_stores (h : sys'.stores = sys.stores) : sys.Inherits sys' := by
  intro i key
  unfold cell
  rw [h]
  exact .refl _

theorem inherits_setStore (hs : sys.stores[j]? = some s) (h : s.Inherits s') :
    sys.Inherits (sys.setStore j s') := by
  intro i key
  rw [chain_setStore hs]
  split
  · rename_i hij
    subst hij
    rw [cell_of_store hs]
    exact h key
  · exact .refl _

theorem Sound.inherits_discard (h : sys.Sound) (name : String) :
    sys.Inherits (sys.discard name).1 := by
  refine onTxn_induction (P := fun sys' => sys.Inherits sys') name (.of_stores rfl) ?_
  intro j t s hfind hs
  have hsound := h.stores j s hs
  have hw := h.nodup_writes hfind hs
  exact inherits_setStore hs (Store.inherits_discard hsound.valid hw)

theorem Sound.inherits_openTxn (h : sys.Sound) (j : Nat) (name : String) (readTs : Timestamp)
    (update : Bool) : sys.Inherits (sys.openTxn j name readTs update).1 := by
  have hdiscard := h.inherits_discard name
  have htake : ∀ id after, (sys.discard name).1.takeId j = some (id, after) →
      sys.Inherits after := fun id after hid i key =>
    (hdiscard i key).trans (Inherits.of_stores (takeId_spec hid).1 i key)
  refine openTxn_induction (P := fun sys' => sys.Inherits sys') hdiscard htake ?_
  intro id after s hid hs i key
  have hsame : s.Inherits (s.openTxn id readTs update).1 := fun k => .refl (s.chain k)
  exact (htake id after hid i key).trans (inherits_setStore hs hsame i key)

/-- Whatever stands against a writer after an action stood against it before, or is a read within the
    action. -/
theorem Sound.admits_act (h : sys.Sound) (hadmits : (sys.cell i key).chain.Admits reads)
    (hreads : ∀ u sight, sys.Tells a i u key (.found sight) →
      ∀ m ∈ (sys.cell i key).chain.found? u.readTs, reads m.serial u.readTs u.id) :
    ((sys.act a).1.cell i key).chain.Admits reads := by
  have hquiet : ∀ {sys' : System V}, sys.Inherits sys' → (sys'.cell i key).chain.Admits reads :=
    fun hinherits => hadmits.inherits (hinherits i key)
  cases a with
  | openTxn j name readTs update => exact hquiet (h.inherits_openTxn j name readTs update)
  | get name k =>
    refine onTxn_induction (P := fun sys' => (sys'.cell i key).chain.Admits reads) name hadmits ?_
    intro j t s hfind hs
    show ((sys.setStore j (s.get t k).2).cell i key).chain.Admits reads
    rw [chain_setStore hs]
    split
    · rename_i hij
      subst hij
      rw [cell_of_store hs] at hadmits hreads
      refine Store.admits_get (h.stores i s hs).valid t k hadmits ?_
      rintro rfl hp
      have htells : sys.Tells (.get name k) i t k (s.tells t k) := .read hfind hs
      rw [Store.tells, hp] at htells
      exact hreads t _ htells
    · exact hadmits
  | set name k value =>
    refine hquiet (onTxn_induction (P := fun sys' => sys.Inherits sys') name (.of_stores rfl) ?_)
    intro j t s hfind hs
    exact inherits_setStore hs (Store.inherits_set (h.stores j s hs).valid t k value)
  | commit name ts =>
    refine hquiet (onTxn_induction (P := fun sys' => sys.Inherits sys') name (.of_stores rfl) ?_)
    intro j t s hfind hs
    have hsound := h.stores j s hs
    have hw := h.nodup_writes hfind hs
    exact inherits_setStore hs (Store.inherits_commit hsound.valid hw ts)
  | discard name => exact hquiet (h.inherits_discard name)
  | openScan name lower upper dir =>
    exact hquiet (onTxn_induction (P := fun sys' => sys.Inherits sys') name (.of_stores rfl)
      fun _ _ _ _ _ => .of_stores rfl)
  | nextItem n =>
    refine onScan_induction (P := fun sys' => (sys'.cell i key).chain.Admits reads) n hadmits ?_
    intro scan j t s hscan hfind hs
    show ((sys.setStore j (s.scanNext t scan.cursor).store).cell i key).chain.Admits reads
    rw [chain_setStore hs]
    split
    · rename_i hij
      subst hij
      rw [cell_of_store hs] at hadmits hreads
      refine Store.admits_scanUpTo t _ (h.stores i s hs).valid _ hadmits ?_
      rintro v hv rfl hp
      have htells := Tells.visit hscan hfind hs hv
      rw [Store.tells, hp] at htells
      exact hreads t _ htells
    · exact hadmits
  | closeScan n => exact hadmits
  | gc j =>
    refine hquiet (onStore_induction (P := fun sys' => sys.Inherits sys') j (.of_stores rfl) ?_)
    intro s hs
    exact inherits_setStore hs (Store.inherits_gc (h.stores j s hs).valid)
  | advanceWatermark j ts =>
    refine hquiet (onStore_induction (P := fun sys' => sys.Inherits sys') j (.of_stores rfl) ?_)
    intro s hs
    exact inherits_setStore hs fun k => .refl (s.chain k)
  | takeId j =>
    refine hquiet (act_takeId_induction (P := fun sys' => sys.Inherits sys') j (.of_stores rfl) ?_)
    intro id after hid
    exact .of_stores (takeId_spec hid).1

/-! ### Runs -/

/-- In the run the transaction `u` came to the version called `serial` of `key` on store `i`: it asked
    for the key, without a write of its own there, and this was the version to look at. It was shown
    the version or not. -/
def Recorded (sys : System V) (run : List (Action V)) (i : Nat) (key : Key) (serial : Serial)
    (u : Txn V) : Prop :=
  ∃ done a rest sight m, run = done ++ a :: rest ∧ (sys.exec done).Tells a i u key (.found sight) ∧
    ((sys.exec done).cell i key).chain.found? u.readTs = some m ∧ m.serial = serial

variable {run : List (Action V)} {serial : Serial}

theorem Recorded.append (h : sys.Recorded run i key serial u) (more : List (Action V)) :
    sys.Recorded (run ++ more) i key serial u := by
  obtain ⟨done, a, rest, sight, m, rfl, hm⟩ := h
  exact ⟨done, a, rest ++ more, sight, m, by simp, hm⟩

/-- A read stands against whoever is to supersede the version for the rest of the run. -/
theorem Recorded.guarded (h : sys.Reachable) (hrecorded : sys.Recorded run i key serial u) :
    ((sys.exec run).cell i key).chain.Guarded serial u.readTs u.id := by
  obtain ⟨done, a, rest, sight, m, rfl, htells, hfound, rfl⟩ := hrecorded
  have hreachable := h.exec done
  obtain ⟨hmem, c, hbefore, htold⟩ := htells.cell hreachable.sound
  have hcell := (hreachable.cell_sound i key).steps (hbefore.steps hmem _)
  obtain ⟨draft, hist, hholds⟩ := hcell.holds
  cases hp : u.pending? key with
  | some p =>
    rw [hp] at htold
    cases htold
  | none =>
    rw [hp] at htold
    rw [← Chain.found?_congr (marks_of_readBy hbefore)] at hfound
    have hafter := ((hreachable.act a).sound.exec rest).steps i key
    rw [exec_append]
    exact Cell.steps_guarded (htold.2.trans hafter) (hholds.shape.guarded_of_found? hfound u.id)

variable (configs : List Config) (shared : Bool)

/-- Nothing but the reads of the run stands against anybody. -/
theorem admits_exec (run : List (Action V)) (i : Nat) (key : Key) :
    (((start configs shared).exec run).cell i key).chain.Admits fun serial ts reader =>
      ∃ u, (start configs shared).Recorded run i key serial u ∧ u.readTs = ts ∧ u.id = reader := by
  induction run using List.reverseRecOn with
  | nil =>
    intro v hv
    have hempty : ((start configs shared : System V).cell i key).chain = .empty := by
      rw [cell_start]
    rw [exec, List.foldl_nil, hempty] at hv
    cases hv
  | append_singleton run a ih =>
    have hsound := ((sound_start configs shared : (start configs shared : System V).Sound).exec run).sound
    rw [exec_append]
    refine hsound.admits_act (ih.mono ?_) ?_
    · rintro serial ts reader ⟨u, hrecorded, hu⟩
      exact ⟨u, hrecorded.append [a], hu⟩
    · intro u sight htells m hm
      exact ⟨u, ⟨run, a, [], sight, m, rfl, htells, hm, rfl⟩, rfl, rfl⟩

/-- The stamp of a version admits exactly those who get past every read of the version in the run. -/
theorem admits_iff_recorded {v : Version V}
    (hv : v ∈ (((start configs shared).exec run).cell i key).chain.versions) (ts : Timestamp)
    (writer : TxnId) : v.stamp.admits ts writer = true ↔
      ∀ u, (start configs shared).Recorded run i key v.serial u →
        u.readTs < ts ∨ u.readTs = ts ∧ u.id = writer := by
  constructor
  · intro hadmits u hrecorded
    have hguarded := hrecorded.guarded ⟨configs, shared, [], rfl⟩
    exact (hguarded.guards v hv rfl ts writer hadmits).imp_right fun h => ⟨h.1, h.2.symm⟩
  · intro hpast
    refine admits_exec configs shared run i key v hv ts writer ?_
    rintro _ _ ⟨u, hrecorded, rfl, rfl⟩
    exact (hpast u hrecorded).imp_right fun h => ⟨h.1, h.2.symm⟩

end System

end RadixStore
