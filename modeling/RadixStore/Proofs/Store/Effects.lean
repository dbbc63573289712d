import Mathlib
import RadixStore.Proofs.Store.Publication

/-!
# What actions come to

In a system in good order an action comes to one of few things, as far as the stores, the open
transactions and the count of trimmed versions are concerned. Whoever wants to know what all actions
keep need look at those only.
-/

namespace RadixStore

variable {V : Type}

/-- The name of the transaction that an action opens, writes by, or ends. -/
def Action.subject? : Action V → Option String
  | .openTxn _ name _ _ | .set name _ _ | .commit name _ | .discard name => some name
  | _ => none

theorem Action.forall_subject {a : Action V} (h : a.subject? = none) {P : String → Prop} :
    ∀ name ∈ a.subject?, P name := by
  simp [h]

namespace System

/-- What an action comes to that is answered like this. -/
inductive Effect : System V → Action V → Answer V → System V → Prop
  /-- Nothing is read or written, and nobody has the name of the transaction, if it is one that the
      action would open, write by or end. -/
  | idle {sys after : System V} {a : Action V} {answer : Answer V} :
      after.stores = sys.stores → after.txns = sys.txns → after.reclaimed = sys.reclaimed →
      (∀ name ∈ a.subject?, sys.txns.find name = none ∧ answer = .unknown) →
      Effect sys a answer after
  | get {sys : System V} {name : String} {i : Nat} {t : Txn V} {s : Store V} {key : Key} :
      sys.txns.find name = some ⟨i, t⟩ → sys.stores[i]? = some s →
      Effect sys (.get name key) (.value (s.get t key).1) (sys.setStore i (s.get t key).2)
  | set {sys : System V} {name : String} {i : Nat} {t : Txn V} {s : Store V} {key : Key} {value : V} :
      sys.txns.find name = some ⟨i, t⟩ → sys.stores[i]? = some s →
      Effect sys (.set name key value)
        (.wrote (s.set t key value).verdict (s.set t key value).txn.writes.length)
        { sys.setStore i (s.set t key value).store with
          txns := sys.txns.bind name ⟨i, (s.set t key value).txn⟩ }
  | commit {sys : System V} {name : String} {i : Nat} {t : Txn V} {s : Store V} {ts : Timestamp} :
      sys.txns.find name = some ⟨i, t⟩ → sys.stores[i]? = some s →
      Effect sys (.commit name ts) (.verdict (s.commit t ts).verdict)
        { sys.setStore i (s.commit t ts).store with
          txns := sys.txns.unbind name
          reclaimed := sys.reclaimed + (s.commit t ts).reclaimed }
  | discard {sys : System V} {name : String} {i : Nat} {t : Txn V} {s : Store V} :
      sys.txns.find name = some ⟨i, t⟩ → sys.stores[i]? = some s →
      Effect sys (.discard name) .done
        { sys.setStore i (s.discard t) with txns := sys.txns.unbind name }
  | scan {sys : System V} {n : Nat} {scan : OpenScan} {i : Nat} {t : Txn V} {s : Store V} :
      sys.scans.find n = some scan → sys.txns.find scan.txn = some ⟨i, t⟩ →
      sys.stores[i]? = some s →
      Effect sys (.nextItem n) (.item (s.scanNext t scan.cursor).item)
        { sys.setStore i (s.scanNext t scan.cursor).store with
          scans := sys.scans.bind n { scan with cursor := (s.scanNext t scan.cursor).cursor } }
  | sweep {sys : System V} {i : Nat} {s : Store V} : sys.stores[i]? = some s →
      Effect sys (.gc i) (.swept s.gc.2)
        { sys.setStore i s.gc.1 with reclaimed := sys.reclaimed + s.gc.2.reclaimed }
  | advance {sys : System V} {i : Nat} {s : Store V} {ts : Timestamp} : sys.stores[i]? = some s →
      Effect sys (.advanceWatermark i ts) .done (sys.setStore i (s.advanceWatermark ts))
  | opened {sys taken : System V} {i : Nat} {name : String} {readTs : Timestamp} {update : Bool}
      {id : TxnId} {s : Store V} : sys.txns.find name = none → taken.stores = sys.stores →
      taken.txns = sys.txns → taken.reclaimed = sys.reclaimed → sys.stores[i]? = some s →
      Effect sys (.openTxn i name readTs update) (.opened id readTs update 0)
        { taken.setStore i (s.openTxn id readTs update).1 with
          txns := taken.txns.bind name ⟨i, ⟨id, readTs, update, []⟩⟩ }
  /-- The name is in use, and the transaction that has it is discarded first. -/
  | reopened {sys after : System V} {i : Nat} {name : String} {readTs : Timestamp} {update : Bool}
      {answer : Answer V} : (sys.txns.find name).isSome →
      Effect (sys.act (.discard name)).1 (.openTxn i name readTs update) answer after →
      Effect sys (.openTxn i name readTs update) answer after

variable {sys after : System V} {name : String} {i : Nat}

/-- Nothing happens by a name that nobody has. -/
theorem act_of_find_none (hfind : sys.txns.find name = none) :
    sys.act (.discard name) = (sys, .unknown) ∧
      ∀ ts, sys.act (.commit name ts) = (sys, .unknown) := by
  simp [System.act, System.discard, onTxn, hfind]

theorem act_discard {t : Txn V} {s : Store V} (hfind : sys.txns.find name = some ⟨i, t⟩)
    (hs : sys.stores[i]? = some s) : sys.act (.discard name) =
      ({ sys.setStore i (s.discard t) with txns := sys.txns.unbind name }, .done) := by
  simp [System.act, System.discard, onTxn, onStore, hfind, hs]

/-- A transaction that is opened under the name of another one takes its place after that one has been
    discarded. -/
theorem act_openTxn_eq (sys : System V) (i : Nat) (name : String) (readTs : Timestamp)
    (update : Bool) : sys.act (.openTxn i name readTs update) =
      (sys.act (.discard name)).1.act (.openTxn i name readTs update) := by
  have hagain : ((sys.discard name).1.discard name).1 = (sys.discard name).1 := by
    cases hfind : sys.txns.find name with
    | none => simp [System.discard, onTxn, hfind]
    | some o =>
      cases hs : sys.stores[o.store]? with
      | none => simp [System.discard, onTxn, onStore, hfind, hs]
      | some s =>
        have htxns : (sys.discard name).1.txns = sys.txns.unbind name := by
          simp [System.discard, onTxn, onStore, hfind, hs]
        have hgone : (sys.discard name).1.txns.find name = none :=
          htxns ▸ Bindings.find_unbind_self _ _
        have hunknown : (sys.discard name).1.discard name = ((sys.discard name).1, .unknown) :=
          (act_of_find_none hgone).1
        rw [hunknown]
  show sys.openTxn i name readTs update = (sys.discard name).1.openTxn i name readTs update
  unfold System.openTxn
  rw [hagain]

theorem reclaimed_takeId {id : TxnId} (h : sys.takeId i = some (id, after)) :
    after.reclaimed = sys.reclaimed := by
  obtain ⟨a, -, heq⟩ := Option.map_eq_some_iff.1 h
  rw [← (Prod.mk.inj heq).2]

theorem effect_onStore {a : Action V} {f : Store V → System V × Answer V}
    (hsubject : ∀ name ∈ a.subject?, sys.txns.find name = none)
    (hf : ∀ s, sys.stores[i]? = some s → Effect sys a (f s).2 (f s).1) :
    Effect sys a (sys.onStore i f).2 (sys.onStore i f).1 := by
  unfold System.onStore
  cases hs : sys.stores[i]? with
  | none => exact .idle rfl rfl rfl fun name hname => ⟨hsubject name hname, rfl⟩
  | some s => exact hf s hs

theorem Sound.effect_onTxn (h : sys.Sound) {a : Action V}
    {f : OpenTxn V → Store V → System V × Answer V} (hsubject : ∀ other ∈ a.subject?, other = name)
    (hf : ∀ i t s, sys.txns.find name = some ⟨i, t⟩ → sys.stores[i]? = some s →
      Effect sys a (f ⟨i, t⟩ s).2 (f ⟨i, t⟩ s).1) :
    Effect sys a (sys.onTxn name f).2 (sys.onTxn name f).1 := by
  unfold System.onTxn
  cases hfind : sys.txns.find name with
  | none => exact .idle rfl rfl rfl fun other hother => ⟨hsubject other hother ▸ hfind, rfl⟩
  | some o =>
    obtain ⟨s, hs⟩ := h.exists_store hfind
    unfold System.onStore
    dsimp only
    rw [hs]
    exact hf o.store o.txn s hfind hs

theorem effect_openTxn (hfree : sys.txns.find name = none) (i : Nat) (readTs : Timestamp)
    (update : Bool) :
    Effect sys (.openTxn i name readTs update) (sys.act (.openTxn i name readTs update)).2
      (sys.act (.openTxn i name readTs update)).1 := by
  have hdiscard : sys.discard name = (sys, .unknown) := (act_of_find_none hfree).1
  have hsubject : ∀ other ∈ (Action.openTxn i name readTs update : Action V).subject?,
      sys.txns.find other = none := fun other hother => Option.some_inj.1 hother ▸ hfree
  show Effect sys _ (sys.openTxn i name readTs update).2 (sys.openTxn i name readTs update).1
  unfold System.openTxn
  rw [hdiscard]
  dsimp only
  cases hid : sys.takeId i with
  | none => exact .idle rfl rfl rfl fun other hother => ⟨hsubject other hother, rfl⟩
  | some r =>
    obtain ⟨id, taken⟩ := r
    obtain ⟨hstores, htxns, -⟩ := takeId_spec hid
    have hreclaimed := reclaimed_takeId hid
    dsimp only
    unfold System.onStore
    rw [hstores]
    cases hs : sys.stores[i]? with
    | none =>
      exact .idle hstores htxns hreclaimed fun other hother => ⟨hsubject other hother, rfl⟩
    | some s => exact .opened hfree hstores htxns hreclaimed hs

/-- Every action comes to one of these things. -/
theorem Sound.effect (h : sys.Sound) (a : Action V) : Effect sys a (sys.act a).2 (sys.act a).1 := by
  cases a with
  | openTxn i name readTs update =>
    cases hfind : sys.txns.find name with
    | none => exact effect_openTxn hfind i readTs update
    | some o =>
      have hfree : (sys.act (.discard name)).1.txns.find name = none := h.find_discard name
      rw [act_openTxn_eq]
      exact .reopened (by simp [hfind]) (effect_openTxn hfree i readTs update)
  | get name key => exact h.effect_onTxn (Action.forall_subject rfl) fun _ _ _ => .get
  | set name key value =>
    exact h.effect_onTxn (fun _ hother => (Option.some_inj.1 hother).symm) fun _ _ _ => .set
  | commit name ts =>
    exact h.effect_onTxn (fun _ hother => (Option.some_inj.1 hother).symm) fun _ _ _ => .commit
  | discard name =>
    exact h.effect_onTxn (fun _ hother => (Option.some_inj.1 hother).symm) fun _ _ _ => .discard
  | openScan name lower upper dir =>
    exact h.effect_onTxn (Action.forall_subject rfl)
      fun _ _ _ _ _ => .idle rfl rfl rfl (Action.forall_subject rfl)
  | nextItem n =>
    show Effect sys _ (sys.onScan n _).2 (sys.onScan n _).1
    unfold System.onScan
    cases hscan : sys.scans.find n with
    | none => exact .idle rfl rfl rfl (Action.forall_subject rfl)
    | some scan => exact h.effect_onTxn (Action.forall_subject rfl) fun _ _ _ => .scan hscan
  | closeScan n => exact .idle rfl rfl rfl (Action.forall_subject rfl)
  | gc i => exact effect_onStore (Action.forall_subject rfl) fun _ => .sweep
  | advanceWatermark i ts => exact effect_onStore (Action.forall_subject rfl) fun _ => .advance
  | takeId i =>
    unfold System.act
    dsimp only
    cases hid : sys.takeId i with
    | none => exact .idle rfl rfl rfl (Action.forall_subject rfl)
    | some r =>
      obtain ⟨hstores, htxns, -⟩ := takeId_spec hid
      exact .idle hstores htxns (reclaimed_takeId hid) (Action.forall_subject rfl)

end System

/-! ### What no action takes back -/

/-- Whatever is done to a store, its configuration stays and its watermark does not go back. -/
structure Store.Ages (s s' : Store V) : Prop where
  config_eq : s'.config = s.config
  watermark_le : s.watermark ≤ s'.watermark

namespace Store

variable {s s' s'' : Store V} {t : Txn V}

theorem Ages.refl (s : Store V) : s.Ages s :=
  ⟨rfl, le_rfl⟩

theorem Ages.trans (h : s.Ages s') (h' : s'.Ages s'') : s.Ages s'' :=
  ⟨h'.config_eq.trans h.config_eq, h.watermark_le.trans h'.watermark_le⟩

theorem Rechained.ages (h : s.Rechained s') : s.Ages s' :=
  ⟨h.config_eq, h.watermark_eq.ge⟩

theorem ages_discard (hs : s.index.Valid) (hw : (t.writes.map Prod.fst).Nodup) :
    s.Ages (s.discard t) := by
  rw [discard_eq]
  exact (withdraw_spec hs hw).1.ages.trans ⟨rfl, le_rfl⟩

theorem ages_commit (hs : s.index.Valid) (hw : (t.writes.map Prod.fst).Nodup) (ts : Timestamp) :
    s.Ages (s.commit t ts).store := by
  by_cases hts : ts < t.readTs
  · rw [commit_of_lt hts]
    exact ages_discard hs hw
  · obtain ⟨-, -, hwatermark, hconfig, -⟩ := commit_spec hs hw (not_lt.1 hts)
    exact ⟨hconfig, hwatermark.ge⟩

theorem ages_gc (hs : s.index.Valid) : s.Ages s.gc.1 := by
  unfold Store.gc
  rw [sweepKeys_fst]
  exact (foldl_trimChain_spec hs _ _).1.ages

end Store

namespace System

/-- All stores have aged. -/
def Ages (sys after : System V) : Prop :=
  ∀ i : Nat, Option.Rel Store.Ages sys.stores[i]? after.stores[i]?

variable {sys after later : System V} {a : Action V} {answer : Answer V} {i : Nat} {s s' : Store V}

theorem Ages.of_stores (h : after.stores = sys.stores) : sys.Ages after := by
  intro i
  rw [h]
  cases sys.stores[i]? with
  | none => exact .none
  | some s => exact .some (.refl s)

theorem Ages.trans (h : sys.Ages after) (h' : after.Ages later) : sys.Ages later := by
  intro i
  have hfirst := h i
  have hsecond := h' i
  generalize sys.stores[i]? = o, after.stores[i]? = o', later.stores[i]? = o'' at hfirst hsecond
  cases hfirst with
  | none => exact hsecond
  | some hages =>
    cases hsecond with
    | some hages' => exact .some (hages.trans hages')

theorem ages_setStore (hs : sys.stores[i]? = some s) (h : s.Ages s') :
    sys.Ages (sys.setStore i s') := by
  intro j
  show Option.Rel _ _ (sys.stores.set i s')[j]?
  by_cases hj : i = j
  · subst hj
    rw [List.getElem?_set_self (List.getElem?_eq_some_iff.1 hs).1, hs]
    exact .some h
  · rw [List.getElem?_set_ne hj]
    exact Ages.of_stores rfl j

theorem Effect.ages (h : sys.Effect a answer after) (hsound : sys.Sound) : sys.Ages after := by
  induction h with
  | idle hstores _ _ _ => exact .of_stores hstores
  | @get sys name i t s key hfind hs => exact ages_setStore hs (Store.rechained_get s t key).ages
  | @set sys name i t s key value hfind hs =>
    exact ages_setStore hs (Store.set_cases (hsound.stores i s hs).valid t key value).1.ages
  | @commit sys name i t s ts hfind hs =>
    exact ages_setStore hs
      (Store.ages_commit (hsound.stores i s hs).valid (hsound.nodup_writes hfind hs) ts)
  | @discard sys name i t s hfind hs =>
    exact ages_setStore hs
      (Store.ages_discard (hsound.stores i s hs).valid (hsound.nodup_writes hfind hs))
  | @scan sys n scan i t s hscan hfind hs =>
    exact ages_setStore hs (Store.scanUpTo_spec t _ (hsound.stores i s hs).valid scan.cursor).1.ages
  | @sweep sys i s hs => exact ages_setStore hs (Store.ages_gc (hsound.stores i s hs).valid)
  | @advance sys i s ts hs => exact ages_setStore hs ⟨rfl, le_max_left _ _⟩
  | @opened sys taken i name readTs update id s _ hstores _ _ hs =>
    have hopen : s.Ages (s.openTxn id readTs update).1 := ⟨rfl, le_rfl⟩
    exact (Ages.of_stores hstores).trans (ages_setStore (hstores ▸ hs) hopen)
  | @reopened sys after i name readTs update answer hused _ ih =>
    obtain ⟨⟨j, t⟩, hfind⟩ := Option.isSome_iff_exists.1 hused
    obtain ⟨s, hs⟩ := hsound.exists_store hfind
    have hdiscard := Store.ages_discard (hsound.stores j s hs).valid (hsound.nodup_writes hfind hs)
    have hact : (sys.act (.discard name)).1.stores = sys.stores.set j (s.discard t) := by
      rw [act_discard hfind hs, setStore]
    exact ((ages_setStore hs hdiscard).trans (.of_stores hact)).trans (ih (hsound.act _).sound)

theorem Sound.ages_exec (h : sys.Sound) (actions : List (Action V)) : sys.Ages (sys.exec actions) := by
  induction actions generalizing sys with
  | nil => exact .of_stores rfl
  | cons a actions ih => exact ((h.effect a).ages h).trans (ih (h.act a).sound)

end System

end RadixStore
