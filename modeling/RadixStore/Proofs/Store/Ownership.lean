import Mathlib
import RadixStore.Proofs.Store.Effects
import RadixStore.Proofs.Store.Scans

/-!
# What is done to one store of several

Of the actions on a system some are about a store and the others are not. Those that are can be read
as actions on a system in which this store is the only one: its number is 0 there, and its scans are
numbered by themselves. The others leave the store alone, the transactions that are open on it, and
their scans, as long as no transaction ends while a scan by it is open.
-/

namespace RadixStore

variable {V : Type}

/-- The name of the transaction that the action ends, or whose name it gives to another. -/
def Action.ended? : Action V → Option String
  | .openTxn _ name _ _ | .commit name _ | .discard name => some name
  | _ => none

/-- The action, if it is about the only store there is and `mine` are all the scans. -/
def Action.alone (mine : List Nat) : Action V → Action V
  | .nextItem n => .nextItem (mine.idxOf n)
  | .closeScan n => .closeScan (mine.idxOf n)
  | .gc _ => .gc 0
  | .advanceWatermark _ ts => .advanceWatermark 0 ts
  | a => a

/-- The transaction called `name`, if it is open on store `i`. -/
def txnOn? (txns : Bindings String (OpenTxn V)) (i : Nat) (name : String) : Option (Txn V) :=
  (txns.find name).bind fun o => if o.store = i then some o.txn else none

section TxnOn

variable {txns : Bindings String (OpenTxn V)} {i : Nat} {name : String} {t : Txn V}

theorem txnOn?_eq_some : txnOn? txns i name = some t ↔ txns.find name = some ⟨i, t⟩ := by
  rcases hfind : txns.find name with _ | ⟨j, u⟩
  · simp [txnOn?, hfind]
  · by_cases hj : j = i
    · simp [txnOn?, hfind, hj]
    · simp [txnOn?, hfind, hj]

theorem store_ne_of_txnOn? {o : OpenTxn V} (h : txnOn? txns i name = none)
    (hfind : txns.find name = some o) : o.store ≠ i := by
  rintro rfl
  simp [txnOn?, hfind] at h

theorem txnOn?_unbind (txns : Bindings String (OpenTxn V)) (i : Nat) (name other : String) :
    txnOn? (txns.unbind name) i other = if other = name then none else txnOn? txns i other := by
  unfold txnOn?
  rw [Bindings.find_unbind]
  split <;> rfl

theorem txnOn?_bind (txns : Bindings String (OpenTxn V)) (i : Nat) (name other : String)
    (o : OpenTxn V) : txnOn? (txns.bind name o) i other =
      if other = name then (if o.store = i then some o.txn else none) else txnOn? txns i other := by
  unfold txnOn?
  rw [Bindings.find_bind]
  split <;> rfl

/-- What happens to a transaction of another store is not noticed. -/
theorem txnOn?_unbind_of_none (h : txnOn? txns i name = none) (other : String) :
    txnOn? (txns.unbind name) i other = txnOn? txns i other := by
  rw [txnOn?_unbind]
  split
  · rename_i hother
    rw [hother, h]
  · rfl

theorem txnOn?_bind_of_none {o : OpenTxn V} (h : txnOn? txns i name = none) (hi : o.store ≠ i)
    (other : String) : txnOn? (txns.bind name o) i other = txnOn? txns i other := by
  rw [txnOn?_bind, if_neg hi]
  split
  · rename_i hother
    rw [hother, h]
  · rfl

end TxnOn

namespace System

/-! ### Whose an action is -/

/-- Whether the action leaves the transactions of all open scans open. -/
def spares (sys : System V) (a : Action V) : Bool :=
  sys.scans.all fun b => a.ended? ≠ some b.2.txn

/-- Whether in this run no transaction ends while a scan by it is open. -/
def sparesAll : System V → List (Action V) → Bool
  | _, [] => true
  | sys, a :: run => sys.spares a && sparesAll (sys.act a).1 run

/-- What the action does to store `i`, the scans of which are `mine`, as an action on the only store
    there is. To take an identity does nothing to it, and to open a transaction elsewhere does no more
    than discard the one of the same name. -/
def own? (sys : System V) (i : Nat) (mine : List Nat) : Action V → Option (Action V)
  | .takeId _ => none
  | .openTxn j name readTs update =>
    if j = i then some (.openTxn 0 name readTs update)
    else if (txnOn? sys.txns i name).isSome then some (.discard name) else none
  | a => if sys.target? a = some i then some (a.alone mine) else none

/-- The scans of store `i` after the action, in the order in which they were opened. -/
def ownScans (sys : System V) (i : Nat) (mine : List Nat) : Action V → List Nat
  | .openScan name _ _ _ =>
    if (txnOn? sys.txns i name).isSome then mine ++ [sys.nextScan] else mine
  | _ => mine

variable {sys sys' : System V} {i n : Nat} {mine : List Nat} {a own : Action V} {name : String}
  {o : OpenTxn V} {t : Txn V} {scan : OpenScan}

theorem target?_eq_some_iff : (sys.txns.find name).map OpenTxn.store = some i ↔
    ∃ t, txnOn? sys.txns i name = some t := by
  simp only [txnOn?_eq_some, Option.map_eq_some_iff]
  constructor
  · rintro ⟨⟨j, t⟩, hfind, rfl⟩
    exact ⟨t, hfind⟩
  · rintro ⟨t, hfind⟩
    exact ⟨⟨i, t⟩, hfind, rfl⟩

theorem exists_scan_of_target? (h : ((sys.scans.find n).bind fun scan =>
    sys.txns.find scan.txn).map OpenTxn.store = some i) :
    ∃ scan, sys.scans.find n = some scan ∧ ∃ t, txnOn? sys.txns i scan.txn = some t := by
  cases hscan : sys.scans.find n with
  | none =>
    rw [hscan] at h
    cases h
  | some scan =>
    rw [hscan] at h
    exact ⟨scan, rfl, target?_eq_some_iff.1 h⟩

/-! ### Scans and their transactions -/

/-- The scans in `mine` are those that were opened on store `i`, and the transaction of every open scan
    is still open on the store of the scan. -/
structure Scanning (i : Nat) (mine : List Nat) (sys : System V) : Prop where
  nodup : mine.Nodup
  lt : ∀ n ∈ mine, n < sys.nextScan
  opened : ∀ n scan, sys.scans.find n = some scan → n < sys.nextScan ∧
    ∃ o, sys.txns.find scan.txn = some o ∧ (o.store = i ↔ n ∈ mine)

theorem scanning_start (configs : List Config) (shared : Bool) (i : Nat) :
    (start configs shared : System V).Scanning i [] := by
  refine ⟨List.nodup_nil, by simp, ?_⟩
  intro n scan hscan
  cases hscan

theorem Scanning.mem_of_target (h : sys.Scanning i mine) (hscan : sys.scans.find n = some scan)
    (ht : txnOn? sys.txns i scan.txn = some t) : n ∈ mine := by
  obtain ⟨-, o, ho, hmine⟩ := h.opened n scan hscan
  rw [txnOn?_eq_some.1 ht] at ho
  cases ho
  exact hmine.1 rfl

/-- No other scan stands where scan `n` does. -/
theorem Scanning.ne_of_idxOf (h : sys.Scanning i mine) {k m : Nat} (hk : k ≠ mine.idxOf n)
    (hm : mine[k]? = some m) : m ≠ n := by
  rintro rfl
  obtain ⟨hlt, rfl⟩ := List.getElem?_eq_some_iff.1 hm
  exact hk (h.nodup.idxOf_getElem k hlt).symm

/-- The transaction of an open scan stays open on its store. -/
theorem find_of_spares (hspare : sys.spares a = true) (hscan : sys.scans.find n = some scan)
    (hfind : sys.txns.find scan.txn = some o) :
    ∃ o', (sys.act a).1.txns.find scan.txn = some o' ∧ o'.store = o.store := by
  have hne : a.ended? ≠ some scan.txn := by
    obtain ⟨b, hb, hscan⟩ := Option.map_eq_some_iff.1 hscan
    have hall := List.all_eq_true.1 hspare b (List.mem_of_find?_eq_some hb)
    rw [← hscan]
    exact of_decide_eq_true hall
  obtain ⟨k, hkeep⟩ : ∃ k, a.keepsScan scan.txn k = true := by
    cases a with
    | openTxn _ other _ _ => exact ⟨0, decide_eq_true fun h => hne (congrArg some h)⟩
    | commit other _ => exact ⟨0, decide_eq_true fun h => hne (congrArg some h)⟩
    | discard other => exact ⟨0, decide_eq_true fun h => hne (congrArg some h)⟩
    | closeScan m => exact ⟨m + 1, decide_eq_true m.lt_succ_self.ne⟩
    | _ => exact ⟨0, rfl⟩
  have hruns : sys.Runs scan.txn o.store o.txn := ⟨o.txn, hfind, rfl, rfl⟩
  obtain ⟨t, ht, -⟩ := hruns.act hkeep
  exact ⟨_, ht, rfl⟩

/-- No scan is opened, and the transactions of those that are open stay open. -/
theorem Scanning.of_scans (h : sys.Scanning i mine) (hspare : sys.spares a = true)
    (hnext : (sys.act a).1.nextScan = sys.nextScan)
    (hscans : ∀ n scan', (sys.act a).1.scans.find n = some scan' →
      ∃ scan, sys.scans.find n = some scan ∧ scan'.txn = scan.txn) :
    (sys.act a).1.Scanning i mine := by
  refine ⟨h.nodup, hnext ▸ h.lt, ?_⟩
  intro n scan' hscan'
  obtain ⟨scan, hscan, htxn⟩ := hscans n scan' hscan'
  obtain ⟨hlt, o, hfind, hmine⟩ := h.opened n scan hscan
  obtain ⟨o', hfind', hstore⟩ := find_of_spares hspare hscan hfind
  rw [htxn, hnext]
  exact ⟨hlt, o', hfind', hstore ▸ hmine⟩

theorem Scanning.of_sameScans (h : sys.Scanning i mine) (hspare : sys.spares a = true)
    (hsame : sys.SameScans (sys.act a).1) : (sys.act a).1.Scanning i mine :=
  h.of_scans hspare hsame.2 fun _ scan hscan => ⟨scan, hsame.1 ▸ hscan, rfl⟩

theorem Scanning.openScan (h : sys.Scanning i mine) (hsound : sys.Sound) (lower upper : Option Key)
    (dir : Direction) : (sys.act (.openScan name lower upper dir)).1.Scanning i
      (sys.ownScans i mine (.openScan name lower upper dir)) := by
  cases hfind : sys.txns.find name with
  | none =>
    have hscans : sys.ownScans i mine (.openScan name lower upper dir) = mine := by
      simp [ownScans, txnOn?, hfind]
    have hact : (sys.act (.openScan name lower upper dir)).1 = sys := by simp [act, onTxn, hfind]
    rw [hscans, hact]
    exact h
  | some o =>
    obtain ⟨j, t⟩ := o
    obtain ⟨s, hs⟩ := hsound.exists_store hfind
    have hact : (sys.act (.openScan name lower upper dir)).1 =
        { sys with
          scans := sys.scans.bind sys.nextScan ⟨name, .facing dir lower upper⟩
          nextScan := sys.nextScan + 1 } := by simp [act, onTxn, onStore, hfind, hs]
    have hmine : sys.ownScans i mine (.openScan name lower upper dir) =
        if j = i then mine ++ [sys.nextScan] else mine := by
      by_cases hj : j = i
      · simp [ownScans, txnOn?, hfind, hj]
      · simp [ownScans, txnOn?, hfind, hj]
    have hnew : sys.nextScan ∉ mine := fun hmem => lt_irrefl _ (h.lt _ hmem)
    have hmem : ∀ n, n ∈ sys.ownScans i mine (.openScan name lower upper dir) ↔
        n ∈ mine ∨ n = sys.nextScan ∧ j = i := by
      intro n
      rw [hmine]
      split
      · rename_i hj
        simp [hj]
      · rename_i hj
        simp [hj]
    rw [hact]
    refine ⟨?_, ?_, ?_⟩
    · rw [hmine]
      split
      · exact h.nodup.append (List.nodup_singleton _) (by simpa using hnew)
      · exact h.nodup
    · intro n hn
      rcases (hmem n).1 hn with hn | ⟨rfl, -⟩
      · exact Nat.lt_succ_of_lt (h.lt n hn)
      · exact Nat.lt_succ_self _
    · intro n scan hscan
      replace hscan : (sys.scans.bind sys.nextScan ⟨name, .facing dir lower upper⟩).find n =
          some scan := hscan
      rw [Bindings.find_bind] at hscan
      rw [hmem]
      split at hscan
      · rename_i hn
        subst hn
        cases hscan
        refine ⟨Nat.lt_succ_self _, _, hfind, ?_⟩
        simp [hnew]
      · rename_i hn
        obtain ⟨hlt, o, ho, hiff⟩ := h.opened n scan hscan
        refine ⟨Nat.lt_succ_of_lt hlt, o, ho, ?_⟩
        simp [hiff, hn]

theorem Scanning.act (h : sys.Scanning i mine) (hsound : sys.Sound) (hspare : sys.spares a = true) :
    (sys.act a).1.Scanning i (sys.ownScans i mine a) := by
  cases a with
  | openScan name lower upper dir => exact h.openScan hsound lower upper dir
  | openTxn j name readTs update => exact h.of_sameScans hspare (.openTxn j name readTs update)
  | get name key => exact h.of_sameScans hspare (.onTxn name fun _ _ => ⟨rfl, rfl⟩)
  | set name key value => exact h.of_sameScans hspare (.onTxn name fun _ _ => ⟨rfl, rfl⟩)
  | commit name ts => exact h.of_sameScans hspare (.onTxn name fun _ _ => ⟨rfl, rfl⟩)
  | discard name => exact h.of_sameScans hspare (.onTxn name fun _ _ => ⟨rfl, rfl⟩)
  | gc j => exact h.of_sameScans hspare (.onStore j fun _ => ⟨rfl, rfl⟩)
  | advanceWatermark j ts => exact h.of_sameScans hspare (.onStore j fun _ => ⟨rfl, rfl⟩)
  | takeId j =>
    refine h.of_sameScans hspare (act_takeId_induction j ⟨rfl, rfl⟩ fun _ _ hid => ?_)
    exact SameScans.takeId ⟨rfl, rfl⟩ hid
  | closeScan m =>
    refine h.of_scans hspare rfl fun n scan hscan => ⟨scan, ?_, rfl⟩
    replace hscan : (sys.scans.unbind m).find n = some scan := hscan
    rw [Bindings.find_unbind] at hscan
    split at hscan
    · cases hscan
    · exact hscan
  | nextItem m =>
    have hboth : (sys.act (.nextItem m)).1.nextScan = sys.nextScan ∧
        ∀ n scan', (sys.act (.nextItem m)).1.scans.find n = some scan' →
          ∃ scan, sys.scans.find n = some scan ∧ scan'.txn = scan.txn := by
      refine onScan_induction (P := fun after => after.nextScan = sys.nextScan ∧
        ∀ n scan', after.scans.find n = some scan' →
          ∃ scan, sys.scans.find n = some scan ∧ scan'.txn = scan.txn) m
        ⟨rfl, fun n scan hscan => ⟨scan, hscan, rfl⟩⟩ ?_
      intro scan j t s hscan _ _
      refine ⟨rfl, fun n scan' hscan' => ?_⟩
      replace hscan' : (sys.scans.bind m _).find n = some scan' := hscan'
      rw [Bindings.find_bind] at hscan'
      split at hscan'
      · rename_i hn
        cases hscan'
        exact ⟨scan, hn ▸ hscan, rfl⟩
      · exact ⟨scan', hscan', rfl⟩
    exact h.of_scans hspare hboth.1 hboth.2

/-! ### What is done elsewhere -/

/-- Store `i`, its transactions and its scans are the same. -/
structure SameFor (i : Nat) (mine : List Nat) (sys sys' : System V) : Prop where
  store_eq : sys'.stores[i]? = sys.stores[i]?
  txns_eq : ∀ name, txnOn? sys'.txns i name = txnOn? sys.txns i name
  scans_eq : ∀ n ∈ mine, sys'.scans.find n = sys.scans.find n

theorem SameFor.refl (i : Nat) (mine : List Nat) (sys : System V) : SameFor i mine sys sys :=
  ⟨rfl, fun _ => rfl, fun _ _ => rfl⟩

theorem SameFor.onStore {j : Nat} {f : Store V → System V × Answer V}
    (hf : ∀ s, SameFor i mine sys (f s).1) : SameFor i mine sys (sys.onStore j f).1 :=
  onStore_induction j (.refl i mine sys) fun s _ => hf s

theorem SameFor.onTxn (hfree : txnOn? sys.txns i name = none)
    {f : OpenTxn V → Store V → System V × Answer V}
    (hf : ∀ j, j ≠ i → ∀ t s, SameFor i mine sys (f ⟨j, t⟩ s).1) :
    SameFor i mine sys (sys.onTxn name f).1 :=
  onTxn_induction name (.refl i mine sys) fun j t s hfind _ =>
    hf j (store_ne_of_txnOn? hfree hfind) t s

theorem getElem?_setStore_of_ne (sys : System V) {j : Nat} (hj : j ≠ i) (s : Store V) :
    (sys.setStore j s).stores[i]? = sys.stores[i]? :=
  List.getElem?_set_ne hj

theorem SameFor.discard (hfree : txnOn? sys.txns i name = none) :
    SameFor i mine sys (sys.discard name).1 :=
  .onTxn hfree fun _ hj _ _ =>
    ⟨getElem?_setStore_of_ne sys hj _, txnOn?_unbind_of_none hfree, fun _ _ => rfl⟩

theorem SameFor.takeId {j : Nat} {id : TxnId} {after : System V} (h : SameFor i mine sys sys')
    (hid : sys'.takeId j = some (id, after)) : SameFor i mine sys after := by
  obtain ⟨b, -, heq⟩ := Option.map_eq_some_iff.1 hid
  obtain ⟨-, rfl⟩ := Prod.mk.inj heq
  exact ⟨h.store_eq, h.txns_eq, h.scans_eq⟩

theorem SameFor.openTxn {j : Nat} (hj : j ≠ i) (hfree : txnOn? sys.txns i name = none)
    (readTs : Timestamp) (update : Bool) :
    SameFor i mine sys (sys.openTxn j name readTs update).1 := by
  have hdiscard : SameFor i mine sys (sys.discard name).1 := .discard hfree
  have htake : ∀ id after, (sys.discard name).1.takeId j = some (id, after) →
      SameFor i mine sys after := fun id after hid => hdiscard.takeId hid
  refine openTxn_induction hdiscard htake fun id after s hid _ => ?_
  have hafter := htake id after hid
  refine ⟨(getElem?_setStore_of_ne after hj _).trans hafter.store_eq, fun other => ?_,
    hafter.scans_eq⟩
  have hfree' : txnOn? after.txns i name = none := (hafter.txns_eq name).trans hfree
  exact (txnOn?_bind_of_none hfree' hj other).trans (hafter.txns_eq other)

/-- An action on a transaction that is about another store, or about none. -/
theorem txnOn?_of_own? (h : (if (sys.txns.find name).map OpenTxn.store = some i then some own
    else none) = none) : txnOn? sys.txns i name = none := by
  cases ht : txnOn? sys.txns i name with
  | none => rfl
  | some t =>
    rw [if_pos (target?_eq_some_iff.2 ⟨t, ht⟩)] at h
    cases h

theorem exists_txnOn?_of_own? (h : (if (sys.txns.find name).map OpenTxn.store = some i then some a
    else none) = some own) : a = own ∧ ∃ t, txnOn? sys.txns i name = some t := by
  split at h
  · rename_i htarget
    exact ⟨Option.some_inj.1 h, target?_eq_some_iff.1 htarget⟩
  · cases h

/-- An action that does nothing to store `i` leaves it, its transactions and its scans alone. -/
theorem Scanning.sameFor (h : sys.Scanning i mine) (hown : sys.own? i mine a = none) :
    SameFor i mine sys (sys.act a).1 := by
  cases a with
  | openTxn j name readTs update =>
    have hj : j ≠ i := by
      rintro rfl
      simp [own?] at hown
    have hfree : txnOn? sys.txns i name = none := by simpa [own?, hj] using hown
    exact .openTxn hj hfree readTs update
  | get name key =>
    exact .onTxn (txnOn?_of_own? hown) fun _ hj _ _ =>
      ⟨getElem?_setStore_of_ne sys hj _, fun _ => rfl, fun _ _ => rfl⟩
  | set name key value =>
    have hfree := txnOn?_of_own? hown
    exact .onTxn hfree fun _ hj _ _ =>
      ⟨getElem?_setStore_of_ne sys hj _, txnOn?_bind_of_none hfree hj, fun _ _ => rfl⟩
  | commit name ts =>
    have hfree := txnOn?_of_own? hown
    exact .onTxn hfree fun _ hj _ _ =>
      ⟨getElem?_setStore_of_ne sys hj _, txnOn?_unbind_of_none hfree, fun _ _ => rfl⟩
  | discard name => exact .discard (txnOn?_of_own? hown)
  | openScan name lower upper dir =>
    refine .onTxn (txnOn?_of_own? hown) fun _ _ _ _ => ⟨rfl, fun _ => rfl, fun n hn => ?_⟩
    exact Bindings.find_bind_of_ne _ _ (Nat.ne_of_lt (h.lt n hn))
  | nextItem m =>
    refine onScan_induction m (.refl i mine sys) fun scan j t s hscan hfind _ => ?_
    have hj : j ≠ i := by
      rintro rfl
      simp [own?, target?, hscan, hfind] at hown
    obtain ⟨-, o, ho, hmine⟩ := h.opened m scan hscan
    rw [hfind] at ho
    cases ho
    refine ⟨getElem?_setStore_of_ne sys hj _, fun _ => rfl, fun n hn => ?_⟩
    have hne : n ≠ m := by
      rintro rfl
      exact hj (hmine.2 hn)
    exact Bindings.find_bind_of_ne _ _ hne
  | closeScan m =>
    refine ⟨rfl, fun _ => rfl, fun n hn => ?_⟩
    have hunbind : (sys.act (.closeScan m)).1.scans.find n = (sys.scans.unbind m).find n := rfl
    rw [hunbind, Bindings.find_unbind]
    split
    · rename_i hnm
      subst hnm
      cases hscan : sys.scans.find n with
      | none => rfl
      | some scan =>
        obtain ⟨-, o, ho, hmine⟩ := h.opened n scan hscan
        have htarget : sys.target? (.closeScan n) = some i := by
          simp [target?, hscan, ho, hmine.2 hn]
        rw [own?, if_pos htarget] at hown
        · cases hown
        all_goals simp
    · rfl
  | gc j =>
    have hj : j ≠ i := by
      rintro rfl
      simp [own?, target?] at hown
    exact .onStore fun _ => ⟨getElem?_setStore_of_ne sys hj _, fun _ => rfl, fun _ _ => rfl⟩
  | advanceWatermark j ts =>
    have hj : j ≠ i := by
      rintro rfl
      simp [own?, target?] at hown
    exact .onStore fun _ => ⟨getElem?_setStore_of_ne sys hj _, fun _ => rfl, fun _ _ => rfl⟩
  | takeId j =>
    exact act_takeId_induction j (.refl i mine sys) fun id after hid =>
      SameFor.takeId (.refl i mine sys) hid

end System

end RadixStore
