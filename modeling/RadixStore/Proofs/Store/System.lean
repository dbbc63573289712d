import Mathlib
import RadixStore.Proofs.Store.Invariant
import RadixStore.Store.System

/-!
# Systems in good order

In a system every store is in good order with the transactions that are open on it, and no
transaction has an identity that its source has still to hand out. Every action keeps it so and
means, for every key of every store, steps of the kinds that are known.
-/

namespace RadixStore

variable {V : Type}

/-! ### The open transactions of a store -/

/-- The open transactions of store `i`. -/
def openOn (txns : Bindings String (OpenTxn V)) (i : Nat) : Multiset (Txn V) :=
  ((txns.filter fun b => b.2.store = i).map fun b => b.2.txn : List (Txn V))

section OpenOn

variable {txns : Bindings String (OpenTxn V)} {name : String} {i j : Nat} {t : Txn V}

theorem openOn_bind_self (txns : Bindings String (OpenTxn V)) (name : String) (i : Nat)
    (t : Txn V) : openOn (txns.bind name ⟨i, t⟩) i = t ::ₘ openOn (txns.unbind name) i := by
  simp [openOn, Bindings.bind]

theorem openOn_bind_of_ne (txns : Bindings String (OpenTxn V)) (name : String) (t : Txn V)
    (h : j ≠ i) : openOn (txns.bind name ⟨i, t⟩) j = openOn (txns.unbind name) j := by
  simp [openOn, Bindings.bind, Ne.symm h]

/-- A name stands for one of the open transactions, and the others are left when it is forgotten. -/
theorem openOn_of_find (hnames : (txns.map Prod.fst).Nodup) (h : txns.find name = some ⟨i, t⟩) :
    openOn txns i = t ::ₘ openOn (txns.unbind name) i ∧
      ∀ j, j ≠ i → openOn (txns.unbind name) j = openOn txns j := by
  have hsame : ∀ j, openOn (txns.bind name ⟨i, t⟩) j = openOn txns j := fun j =>
    Multiset.coe_eq_coe.2 (((Bindings.bind_perm hnames h).filter _).map _)
  constructor
  · rw [← hsame i, openOn_bind_self]
  · intro j hj
    rw [← hsame j, openOn_bind_of_ne txns name t hj]

end OpenOn

/-! ### Good order -/

namespace System

/-- The next identity that store `i` takes. -/
def nextId (sys : System V) (i : Nat) : TxnId :=
  (sys.source? i).elim 0 IdSource.next

/-- The system is in good order. -/
structure Sound (sys : System V) : Prop where
  names : (sys.txns.map Prod.fst).Nodup
  stores : ∀ i (s : Store V), sys.stores[i]? = some s → s.Sound (openOn sys.txns i)
  placed : ∀ i, sys.stores[i]? = none → openOn sys.txns i = 0
  ids : ∀ i, ∀ t ∈ openOn sys.txns i, t.id < sys.nextId i

/-- What the system amounts to for one key of store `i`. -/
def cell (sys : System V) (i : Nat) (key : Key) : Cell V :=
  ⟨(sys.stores[i]?.map fun s => s.chain key).getD .empty, openOn sys.txns i, sys.nextId i⟩

/-- The system `sys'` is in good order and comes from `sys` by steps for every key of every
    store. -/
structure Leads (sys sys' : System V) : Prop where
  sound : sys'.Sound
  steps : ∀ i key, Cell.Steps key (sys.cell i key) (sys'.cell i key)

variable {sys sys' sys'' : System V} {i : Nat} {s s' : Store V} {name : String} {t : Txn V}

theorem Leads.refl (h : sys.Sound) : sys.Leads sys :=
  ⟨h, fun _ _ => .refl⟩

theorem Leads.trans (h : sys.Leads sys') (h' : sys'.Leads sys'') : sys.Leads sys'' :=
  ⟨h'.sound, fun i key => (h.steps i key).trans (h'.steps i key)⟩

theorem sound_start (configs : List Config) (shared : Bool) :
    (start configs shared : System V).Sound := by
  refine ⟨List.nodup_nil, ?_, fun i _ => rfl, ?_⟩
  · intro i s hs
    obtain ⟨config, -, rfl⟩ := List.mem_map.1 (List.mem_of_getElem? hs)
    exact Store.sound_empty config
  · intro i t ht
    simp [start, openOn] at ht

theorem cell_of_store (hs : sys.stores[i]? = some s) (key : Key) :
    sys.cell i key = s.cell (openOn sys.txns i) (sys.nextId i) key := by
  simp [cell, Store.cell, hs]

/-- What stays of a store stays in the list of all. -/
theorem map_stores_setStore {α : Type} {f : Store V → α} (hs : sys.stores[i]? = some s)
    (h : f s' = f s) : (sys.setStore i s').stores.map f = sys.stores.map f := by
  obtain ⟨hi, rfl⟩ := List.getElem?_eq_some_iff.1 hs
  show (sys.stores.set i s').map f = sys.stores.map f
  rw [List.map_set, h, ← List.map_set, List.set_getElem_self]

/-- Nothing changes but identities that are taken, and what neither stores nor transactions see. -/
theorem Sound.leads_of_eq (h : sys.Sound) (hstores : sys'.stores = sys.stores)
    (htxns : sys'.txns = sys.txns) (hnext : ∀ j, sys.nextId j ≤ sys'.nextId j) :
    sys.Leads sys' := by
  refine ⟨⟨htxns ▸ h.names, ?_, ?_, ?_⟩, ?_⟩
  · intro j r hr
    rw [htxns]
    exact h.stores j r (hstores ▸ hr)
  · intro j hr
    rw [htxns]
    exact h.placed j (hstores ▸ hr)
  · intro j u hu
    exact lt_of_lt_of_le (h.ids j u (htxns ▸ hu)) (hnext j)
  · intro j key
    unfold cell
    rw [hstores, htxns]
    exact .single (.skip (hnext j))

/-- Store `i` and the transactions open on it change, and the other stores see no more of it than
    identities that are taken. -/
theorem Sound.leads_of_store (h : sys.Sound) (hs : sys.stores[i]? = some s)
    (hstores : sys'.stores = sys.stores.set i s') (hnames : (sys'.txns.map Prod.fst).Nodup)
    (hothers : ∀ j, j ≠ i → openOn sys'.txns j = openOn sys.txns j)
    (hnext : ∀ j, sys.nextId j ≤ sys'.nextId j)
    (hids : ∀ u ∈ openOn sys'.txns i, u.id < sys'.nextId i)
    (hsound : s'.Sound (openOn sys'.txns i))
    (hsteps : ∀ key, Cell.Steps key (s.cell (openOn sys.txns i) (sys.nextId i) key)
      (s'.cell (openOn sys'.txns i) (sys'.nextId i) key)) : sys.Leads sys' := by
  have hlt : i < sys.stores.length := (List.getElem?_eq_some_iff.1 hs).1
  have hself : sys'.stores[i]? = some s' := by
    rw [hstores, List.getElem?_set_self hlt]
  have hother : ∀ j, j ≠ i → sys'.stores[j]? = sys.stores[j]? := by
    intro j hj
    rw [hstores, List.getElem?_set_ne (Ne.symm hj)]
  refine ⟨⟨hnames, ?_, ?_, ?_⟩, ?_⟩
  · intro j r hr
    by_cases hj : j = i
    · subst hj
      rw [hself] at hr
      cases hr
      exact hsound
    · rw [hothers j hj]
      exact h.stores j r (hother j hj ▸ hr)
  · intro j hr
    by_cases hj : j = i
    · subst hj
      rw [hself] at hr
      cases hr
    · rw [hothers j hj]
      exact h.placed j (hother j hj ▸ hr)
  · intro j u hu
    by_cases hj : j = i
    · subst hj
      exact hids u hu
    · exact lt_of_lt_of_le (h.ids j u (hothers j hj ▸ hu)) (hnext j)
  · intro j key
    by_cases hj : j = i
    · subst hj
      rw [cell_of_store hs, cell_of_store hself]
      exact hsteps key
    · unfold cell
      rw [hother j hj, hothers j hj]
      exact .single (.skip (hnext j))

/-! ### Finding what an action is about -/

section Finding

variable {P : System V → Prop}

/-- What holds before an action on a store holds after it if it holds after what is done there. -/
theorem onStore_induction (i : Nat) {f : Store V → System V × Answer V} (hsame : P sys)
    (hf : ∀ s, sys.stores[i]? = some s → P (f s).1) : P (sys.onStore i f).1 := by
  unfold System.onStore
  cases hs : sys.stores[i]? with
  | none => exact hsame
  | some s => exact hf s hs

theorem onTxn_induction (name : String) {f : OpenTxn V → Store V → System V × Answer V}
    (hsame : P sys)
    (hf : ∀ i t s, sys.txns.find name = some ⟨i, t⟩ → sys.stores[i]? = some s → P (f ⟨i, t⟩ s).1) :
    P (sys.onTxn name f).1 := by
  unfold System.onTxn
  cases hfind : sys.txns.find name with
  | none => exact hsame
  | some o => exact onStore_induction o.store hsame fun s hs => hf o.store o.txn s hfind hs

theorem onScan_induction (n : Nat) {f : OpenScan → OpenTxn V → Store V → System V × Answer V}
    (hsame : P sys)
    (hf : ∀ scan i t s, sys.scans.find n = some scan → sys.txns.find scan.txn = some ⟨i, t⟩ →
      sys.stores[i]? = some s → P (f scan ⟨i, t⟩ s).1) : P (sys.onScan n f).1 := by
  unfold System.onScan
  cases hscan : sys.scans.find n with
  | none => exact hsame
  | some scan =>
    exact onTxn_induction scan.txn hsame fun i t s hfind hs => hf scan i t s hscan hfind hs

theorem act_takeId_induction (i : Nat) (hsame : P sys)
    (htake : ∀ id after, sys.takeId i = some (id, after) → P after) :
    P (sys.act (.takeId i)).1 := by
  unfold System.act
  dsimp only
  cases hid : sys.takeId i with
  | none => exact hsame
  | some r => exact htake r.1 r.2 hid

/-- To open a transaction is to discard the one of the same name, to take an identity, and to open
    it. -/
theorem openTxn_induction {i : Nat} {name : String} {readTs : Timestamp} {update : Bool}
    (hdiscard : P (sys.discard name).1)
    (htake : ∀ id after, (sys.discard name).1.takeId i = some (id, after) → P after)
    (hopen : ∀ id after s, (sys.discard name).1.takeId i = some (id, after) →
      after.stores[i]? = some s → P { after.setStore i (s.openTxn id readTs update).1 with
        txns := after.txns.bind name ⟨i, (s.openTxn id readTs update).2⟩ }) :
    P (sys.openTxn i name readTs update).1 := by
  unfold System.openTxn
  dsimp only
  cases hid : (sys.discard name).1.takeId i with
  | none => exact hdiscard
  | some r => exact onStore_induction i (htake _ _ hid) fun s hs => hopen _ _ s hid hs

end Finding

/-! ### Actions on stores and transactions -/

theorem Sound.onStore (h : sys.Sound) (i : Nat) (f : Store V → System V × Answer V)
    (hf : ∀ s, sys.stores[i]? = some s → s.Sound (openOn sys.txns i) → sys.Leads (f s).1) :
    sys.Leads (sys.onStore i f).1 :=
  onStore_induction i (.refl h) fun s hs => hf s hs (h.stores i s hs)

theorem Sound.onTxn (h : sys.Sound) (name : String)
    (f : OpenTxn V → Store V → System V × Answer V)
    (hf : ∀ i t s, sys.txns.find name = some ⟨i, t⟩ → sys.stores[i]? = some s →
      openOn sys.txns i = t ::ₘ openOn (sys.txns.unbind name) i →
      s.Sound (t ::ₘ openOn (sys.txns.unbind name) i) → sys.Leads (f ⟨i, t⟩ s).1) :
    sys.Leads (sys.onTxn name f).1 := by
  refine onTxn_induction name (.refl h) fun i t s hfind hs => ?_
  obtain ⟨hopen, -⟩ := openOn_of_find h.names hfind
  exact hf i t s hfind hs hopen (hopen ▸ h.stores i s hs)

theorem Sound.onScan (h : sys.Sound) (n : Nat)
    (f : OpenScan → OpenTxn V → Store V → System V × Answer V)
    (hf : ∀ scan i t s, sys.stores[i]? = some s →
      openOn sys.txns i = t ::ₘ openOn (sys.txns.unbind scan.txn) i →
      s.Sound (t ::ₘ openOn (sys.txns.unbind scan.txn) i) → sys.Leads (f scan ⟨i, t⟩ s).1) :
    sys.Leads (sys.onScan n f).1 := by
  refine onScan_induction n (.refl h) fun scan i t s _ hfind hs => ?_
  obtain ⟨hopen, -⟩ := openOn_of_find h.names hfind
  exact hf scan i t s hs hopen (hopen ▸ h.stores i s hs)

theorem Sound.setStore (h : sys.Sound) (hs : sys.stores[i]? = some s)
    (hleads : s.Leads (openOn sys.txns i) s' (openOn sys.txns i)) :
    sys.Leads (sys.setStore i s') :=
  h.leads_of_store hs rfl h.names (fun _ _ => rfl) (fun _ => le_rfl) (h.ids i) hleads.sound
    (hleads.steps _)

theorem Sound.unbind (h : sys.Sound) (hfind : sys.txns.find name = some ⟨i, t⟩)
    (hs : sys.stores[i]? = some s)
    (hleads : s.Leads (t ::ₘ openOn (sys.txns.unbind name) i) s'
      (openOn (sys.txns.unbind name) i)) (reclaimed : Nat) :
    sys.Leads { sys.setStore i s' with
      txns := sys.txns.unbind name
      reclaimed := reclaimed } := by
  obtain ⟨hopen, hother⟩ := openOn_of_find h.names hfind
  refine h.leads_of_store hs rfl (Bindings.nodup_unbind h.names) hother (fun _ => le_rfl) ?_
    hleads.sound (hopen ▸ hleads.steps _)
  intro u hu
  exact h.ids i u (hopen ▸ Multiset.mem_cons_of_mem hu)

theorem Sound.discard (h : sys.Sound) (name : String) : sys.Leads (sys.discard name).1 := by
  refine h.onTxn name _ ?_
  intro i t s hfind hs _ hsound
  exact h.unbind hfind hs hsound.discard _

theorem Sound.mem_openOn (h : sys.Sound) (hfind : sys.txns.find name = some ⟨i, t⟩) :
    t ∈ openOn sys.txns i := by
  rw [(openOn_of_find h.names hfind).1]
  exact Multiset.mem_cons_self t _

theorem Sound.nodup_writes (h : sys.Sound) (hfind : sys.txns.find name = some ⟨i, t⟩)
    (hs : sys.stores[i]? = some s) : (t.writes.map Prod.fst).Nodup :=
  (h.stores i s hs).writes t (h.mem_openOn hfind)

/-- An open transaction has a store. -/
theorem Sound.exists_store (h : sys.Sound) (hfind : sys.txns.find name = some ⟨i, t⟩) :
    ∃ s, sys.stores[i]? = some s := by
  obtain ⟨hopen, -⟩ := openOn_of_find h.names hfind
  cases hs : sys.stores[i]? with
  | some s => exact ⟨s, rfl⟩
  | none =>
    rw [h.placed i hs] at hopen
    exact absurd hopen Multiset.zero_ne_cons

theorem Sound.find_discard (h : sys.Sound) (name : String) :
    (sys.discard name).1.txns.find name = none := by
  unfold System.discard System.onTxn System.onStore
  cases hfind : sys.txns.find name with
  | none => exact hfind
  | some o =>
    obtain ⟨s, hs⟩ := h.exists_store hfind
    dsimp only
    rw [hs]
    exact Bindings.find_unbind_self _ _

/-! ### Taking an identity -/

/-- The identity taken is the next one, and the source moves on past it. -/
theorem takeId_spec {id : TxnId} (h : sys.takeId i = some (id, sys')) :
    sys'.stores = sys.stores ∧ sys'.txns = sys.txns ∧ sys.nextId i = id ∧ id < sys'.nextId i ∧
      ∀ j, sys.nextId j ≤ sys'.nextId j := by
  obtain ⟨a, ha, heq⟩ := Option.map_eq_some_iff.1 h
  obtain ⟨rfl, rfl⟩ := Prod.mk.inj heq
  have hlt : sys.sourceOf i < sys.sources.length := (List.getElem?_eq_some_iff.1 ha).1
  have hsource : ∀ j, ({ sys with sources := sys.sources.set (sys.sourceOf i) ⟨a.next + 1⟩ } :
      System V).source? j = (sys.sources.set (sys.sourceOf i) ⟨a.next + 1⟩)[sys.sourceOf j]? :=
    fun _ => rfl
  have hself : sys.nextId i = a.next := by
    unfold nextId
    rw [ha]
    rfl
  have hnext : ∀ j, sys.sourceOf i = sys.sourceOf j →
      ({ sys with sources := sys.sources.set (sys.sourceOf i) ⟨a.next + 1⟩ } : System V).nextId j =
        a.next + 1 := by
    intro j hj
    unfold nextId
    rw [hsource, ← hj, List.getElem?_set_self hlt]
    rfl
  refine ⟨rfl, rfl, hself, (Nat.lt_succ_self _).trans_eq (hnext i rfl).symm, ?_⟩
  intro j
  by_cases hj : sys.sourceOf i = sys.sourceOf j
  · have hsame : sys.nextId j = sys.nextId i := by
      unfold nextId source?
      rw [hj]
    exact (hsame.trans hself).trans_le ((Nat.le_succ _).trans_eq (hnext j hj).symm)
  · refine le_of_eq ?_
    unfold nextId
    rw [hsource, List.getElem?_set_ne hj]
    rfl

theorem Sound.openTxn (h : sys.Sound) (i : Nat) (name : String) (readTs : Timestamp)
    (update : Bool) : sys.Leads (sys.openTxn i name readTs update).1 := by
  have hdiscard := h.discard name
  have hfind := h.find_discard name
  unfold System.openTxn
  generalize (sys.discard name).1 = before at hdiscard hfind
  dsimp only
  cases hid : before.takeId i with
  | none => exact hdiscard
  | some r =>
    obtain ⟨id, after⟩ := r
    obtain ⟨hstores, htxns, rfl, hlt, hnext⟩ := takeId_spec hid
    refine hdiscard.trans ?_
    dsimp only
    unfold System.onStore
    cases hs : after.stores[i]? with
    | none => exact hdiscard.sound.leads_of_eq hstores htxns hnext
    | some s =>
      have hbefore : before.stores[i]? = some s := hstores ▸ hs
      have hunbind : after.txns.unbind name = before.txns := by
        rw [htxns]
        exact Bindings.unbind_of_find_none hfind
      have hbind : ∀ t : Txn V, openOn (after.txns.bind name ⟨i, t⟩) i =
          t ::ₘ openOn before.txns i := by
        intro t
        rw [openOn_bind_self, hunbind]
      have hopen := (hdiscard.sound.stores i s hbefore).openTxn
        (fun u hu => ne_of_lt (hdiscard.sound.ids i u hu)) readTs update
      have hset : after.stores.set i (s.openTxn (before.nextId i) readTs update).1 =
          before.stores.set i (s.openTxn (before.nextId i) readTs update).1 := by rw [hstores]
      refine hdiscard.sound.leads_of_store hbefore hset ?_ ?_ hnext ?_ ?_ ?_
      · exact Bindings.nodup_bind (htxns ▸ hdiscard.sound.names) _
      · intro j hj
        exact (openOn_bind_of_ne _ _ _ hj).trans (by rw [hunbind])
      · intro u hu
        rcases Multiset.mem_cons.1 (hbind _ ▸ hu) with rfl | hu
        · exact hlt
        · exact lt_of_lt_of_le (hdiscard.sound.ids i u hu) (hnext i)
      · exact (hbind _).symm ▸ hopen
      · intro key
        refine .single ?_
        unfold Store.cell
        show Cell.Step key _ ⟨_, openOn (after.txns.bind name ⟨i, _⟩) i, _⟩
        rw [hbind]
        exact .enter rfl le_rfl hlt

/-! ### All actions -/

/-- Every action keeps the system in good order and means known steps for every key. -/
theorem Sound.act (h : sys.Sound) (a : Action V) : sys.Leads (sys.act a).1 := by
  cases a with
  | openTxn i name readTs update => exact h.openTxn i name readTs update
  | get name key =>
    refine h.onTxn name _ fun i t s hfind hs hopen hsound => ?_
    have hget := hsound.get (Multiset.mem_cons_self t _) key
    exact h.setStore hs (hopen ▸ hget)
  | set name key value =>
    refine h.onTxn name _ fun i t s hfind hs hopen hsound => ?_
    obtain ⟨-, hother⟩ := openOn_of_find h.names hfind
    have hset := hsound.set key value
    have hbind : openOn (sys.txns.bind name ⟨i, (s.set t key value).txn⟩) i =
        (s.set t key value).txn ::ₘ openOn (sys.txns.unbind name) i := openOn_bind_self _ _ _ _
    refine h.leads_of_store hs rfl (Bindings.nodup_bind h.names _) ?_ (fun _ => le_rfl) ?_
      (hbind.symm ▸ hset.sound) ?_
    · intro j hj
      exact (openOn_bind_of_ne _ _ _ hj).trans (hother j hj)
    · intro u hu
      rcases Multiset.mem_cons.1 (hbind ▸ hu) with rfl | hu
      · rw [(Store.txn_set s t key value).1]
        exact h.ids i t (hopen ▸ Multiset.mem_cons_self t _)
      · exact h.ids i u (hopen ▸ Multiset.mem_cons_of_mem hu)
    · intro k
      rw [hopen]
      show Cell.Steps k _ (Store.cell _ (openOn (sys.txns.bind name ⟨i, _⟩) i) _ k)
      rw [hbind]
      exact hset.steps _ k
  | commit name ts =>
    refine h.onTxn name _ fun i t s hfind hs _ hsound => ?_
    exact h.unbind hfind hs (hsound.commit ts) _
  | discard name => exact h.discard name
  | openScan name lower upper dir =>
    refine h.onTxn name _ fun i t s _ _ _ _ => ?_
    exact h.leads_of_eq rfl rfl fun _ => le_rfl
  | nextItem n =>
    refine h.onScan n _ fun scan i t s hs hopen hsound => ?_
    have hnext := hsound.scanNext (Multiset.mem_cons_self t _) scan.cursor
    have hset := h.setStore hs (hopen ▸ hnext)
    exact hset.trans (hset.sound.leads_of_eq rfl rfl fun _ => le_rfl)
  | closeScan n => exact h.leads_of_eq rfl rfl fun _ => le_rfl
  | gc i =>
    refine h.onStore i _ fun s hs hsound => ?_
    have hset := h.setStore hs hsound.gc
    exact hset.trans (hset.sound.leads_of_eq rfl rfl fun _ => le_rfl)
  | advanceWatermark i ts =>
    exact h.onStore i _ fun s hs hsound => h.setStore hs (hsound.advanceWatermark ts)
  | takeId i =>
    refine act_takeId_induction i (.refl h) fun id after hid => ?_
    obtain ⟨hstores, htxns, -, -, hnext⟩ := takeId_spec hid
    exact h.leads_of_eq hstores htxns hnext

/-- Every run keeps the system in good order and means known steps for every key. -/
theorem Sound.exec (h : sys.Sound) (actions : List (Action V)) : sys.Leads (sys.exec actions) := by
  induction actions generalizing sys with
  | nil => exact .refl h
  | cons a actions ih => exact (h.act a).trans (ih (h.act a).sound)

theorem exec_append (sys : System V) (actions more : List (Action V)) :
    sys.exec (actions ++ more) = (sys.exec actions).exec more :=
  List.foldl_append

/-! ### Reachable systems -/

/-- The system is reached from new stores by some run. -/
def Reachable (sys : System V) : Prop :=
  ∃ configs shared actions, sys = (start configs shared).exec actions

theorem Reachable.exec (h : sys.Reachable) (actions : List (Action V)) :
    (sys.exec actions).Reachable := by
  obtain ⟨configs, shared, run, rfl⟩ := h
  exact ⟨configs, shared, run ++ actions, (exec_append _ run actions).symm⟩

theorem Reachable.act (h : sys.Reachable) (a : Action V) : (sys.act a).1.Reachable :=
  h.exec [a]

theorem Reachable.leads (h : sys.Reachable) :
    ∃ configs shared, (start configs shared : System V).Leads sys := by
  obtain ⟨configs, shared, actions, rfl⟩ := h
  exact ⟨configs, shared, (sound_start configs shared).exec actions⟩

theorem Reachable.sound (h : sys.Reachable) : sys.Sound := by
  obtain ⟨configs, shared, hleads⟩ := h.leads
  exact hleads.sound

theorem cell_start (configs : List Config) (shared : Bool) (i : Nat) (key : Key) :
    (start configs shared : System V).cell i key =
      ⟨.empty, 0, (start configs shared : System V).nextId i⟩ := by
  unfold cell
  congr 1
  cases hs : (start configs shared : System V).stores[i]? with
  | none => rfl
  | some s =>
    obtain ⟨config, -, rfl⟩ := List.mem_map.1 (List.mem_of_getElem? hs)
    simp [Store.chain, Store.chain?, Store.empty, Tree.get?_empty]

/-- Every chain is a history with a draft in front exactly when there is a claim on its key. -/
theorem Reachable.cell_sound (h : sys.Reachable) (i : Nat) (key : Key) :
    (sys.cell i key).Sound key := by
  obtain ⟨configs, shared, hleads⟩ := h.leads
  refine Cell.Sound.steps ?_ (hleads.steps i key)
  rw [cell_start]
  exact Cell.sound_empty key

theorem Reachable.holds (h : sys.Reachable) (hs : sys.stores[i]? = some s) (key : Key) :
    ∃ draft hist,
      (⟨s.chain key, openOn sys.txns i, sys.nextId i⟩ : Cell V).Holds key draft hist := by
  have hcell := (h.cell_sound i key).holds
  rw [cell_of_store hs] at hcell
  exact hcell

/-- The chains of the store of an open transaction, as seen from this transaction. -/
theorem Reachable.holds_find (h : sys.Reachable) (hfind : sys.txns.find name = some ⟨i, t⟩)
    (hs : sys.stores[i]? = some s) (key : Key) :
    ∃ draft hist, (s.cell (t ::ₘ openOn (sys.txns.unbind name) i) (sys.nextId i) key).Holds key
      draft hist := by
  rw [← (openOn_of_find h.sound.names hfind).1]
  exact h.holds hs key

theorem Reachable.holds_cons (h : sys.Reachable) (key : Key) {others : Multiset (Txn V)}
    (hopen : openOn sys.txns i = t ::ₘ others) :
    ∃ draft hist,
      (⟨(sys.cell i key).chain, t ::ₘ others, sys.nextId i⟩ : Cell V).Holds key draft hist := by
  have hcell := (h.cell_sound i key).holds
  have heq : sys.cell i key = ⟨(sys.cell i key).chain, t ::ₘ others, sys.nextId i⟩ := by
    rw [← hopen]
    rfl
  rwa [heq] at hcell

end System

end RadixStore
