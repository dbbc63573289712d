import Mathlib
import RadixStore.Proofs.Store.Ownership
import RadixStore.Proofs.Store.Renaming
import RadixStore.Proofs.Store.Supersession
import RadixStore.Script.Store

/-!
# Stores that share their identities

Stores that draw transaction identities from one source do not interfere. Whatever is done to the
others and however many identities are taken besides, a store answers what it would answer if it were
the only one there is: there the same transactions have other identities, no two the same, and nothing
depends on which.
-/

namespace RadixStore

variable {V : Type}

/-- Whether the action takes an identity. -/
def Action.takesId : Action V → Bool
  | .openTxn _ _ _ _ | .takeId _ => true
  | _ => false

/-- The answer without the identity that was given to a transaction. -/
def Answer.anonymous : Answer V → Answer V
  | .opened _ readTs update pending => .opened 0 readTs update pending
  | answer => answer

/-- What is observed of an action on a store: the answer, and what is to be seen of the store then. -/
structure Observation (V : Type) where
  answer : Answer V
  figures : Option StoreScript.Figures
  isEmpty : Option Bool
  text : Option String

namespace System

/-! ### What becomes of a store -/

/-- What is to be seen of store `i` besides an answer, except for the identity that is next and for
    the count of what was trimmed in all stores. -/
def observation (sys : System V) (i : Nat) (answer : Answer V) : Observation V where
  answer := answer.anonymous
  figures := (StoreScript.figures sys i).map fun f => { f with nextId := 0, reclaimed := 0 }
  isEmpty := sys.stores[i]?.map Store.isEmpty
  text := sys.stores[i]?.map Store.text

/-- What store `i` is answered. Whoever opens a transaction elsewhere is not answered by store `i`. -/
def ownAnswer (i : Nat) : Action V → Answer V → Answer V
  | .openTxn j _ _ _, answer => if j = i then answer else .done
  | _, answer => answer

/-- What a run does to store `i`, the scans of which are `mine`, and what is observed of it. -/
def record (i : Nat) : List Nat → System V → List (Action V) → List (Action V × Observation V)
  | _, _, [] => []
  | mine, sys, a :: run =>
    let (after, answer) := sys.act a
    let rest := record i (sys.ownScans i mine a) after run
    match sys.own? i mine a with
    | none => rest
    | some own => (own, after.observation i (ownAnswer i a answer)) :: rest

/-- A run on the only store there is, and what is observed of it. -/
def recordAlone : System V → List (Action V) → List (Action V × Observation V)
  | _, [] => []
  | sys, a :: run =>
    let (after, answer) := sys.act a
    (a, after.observation 0 answer) :: recordAlone after run

/-- What a run does to store `i`. -/
def actionsOn (sys : System V) (i : Nat) (run : List (Action V)) : List (Action V) :=
  (record i [] sys run).map Prod.fst

/-- What is observed of what a run does to store `i`. -/
def observationsOn (sys : System V) (i : Nat) (run : List (Action V)) : List (Observation V) :=
  (record i [] sys run).map Prod.snd

/-! ### Identities that are taken -/

/-- The identity that the action gives to a transaction of store `i`. -/
def newId? (sys : System V) (i : Nat) : Action V → Option TxnId
  | .openTxn j _ _ _ => if j = i then some (sys.nextId i) else none
  | _ => none

/-- The identities that a run gives to transactions of store `i`. -/
def idsOn (i : Nat) : System V → List (Action V) → List TxnId
  | _, [] => []
  | sys, a :: run => (sys.newId? i a).toList ++ idsOn i (sys.act a).1 run

variable {sys sys' σ σ' : System V} {ρ : TxnId → TxnId} {i : Nat} {mine : List Nat}
  {a own : Action V} {name : String} {t : Txn V}

theorem nextId_start {configs : List Config} {config : Config} (h : configs[i]? = some config)
    (shared : Bool) : (start configs shared : System V).nextId i = 1 := by
  have hsource : ∀ j, j < configs.length → (configs.map fun _ => IdSource.fresh)[j]? = some .fresh := by
    intro j hj
    simp [hj]
  have hlt : i < configs.length := (List.getElem?_eq_some_iff.1 h).1
  unfold nextId source? sourceOf
  cases shared with
  | true => exact congrArg (Option.elim · 0 IdSource.next) (hsource 0 (Nat.zero_lt_of_lt hlt))
  | false => exact congrArg (Option.elim · 0 IdSource.next) (hsource i hlt)

/-- A store with a source can take an identity. -/
theorem exists_takeId (h : 0 < sys.nextId i) : ∃ after, sys.takeId i = some (sys.nextId i, after) ∧
    after.nextId i = sys.nextId i + 1 ∧ sys.SameScans after := by
  unfold nextId at h
  cases ha : sys.source? i with
  | none =>
    rw [ha] at h
    exact absurd h (lt_irrefl 0)
  | some b =>
    have hlt : sys.sourceOf i < sys.sources.length := (List.getElem?_eq_some_iff.1 ha).1
    have hnext : sys.nextId i = b.next := by simp [nextId, ha]
    refine ⟨{ sys with sources := sys.sources.set (sys.sourceOf i) ⟨b.next + 1⟩ }, ?_, ?_, rfl, rfl⟩
    · simp [System.takeId, ha, hnext, IdSource.take]
    · have hself : ({ sys with sources := sys.sources.set (sys.sourceOf i) ⟨b.next + 1⟩ } :
          System V).source? i = some ⟨b.next + 1⟩ := List.getElem?_set_self hlt
      rw [hnext, nextId, hself]
      rfl

theorem nextId_onTxn (name : String) {f : OpenTxn V → Store V → System V × Answer V}
    (hf : ∀ o s, (f o s).1.nextId i = sys.nextId i) :
    (sys.onTxn name f).1.nextId i = sys.nextId i :=
  onTxn_induction (P := fun after => after.nextId i = sys.nextId i) name rfl fun j t s _ _ =>
    hf ⟨j, t⟩ s

theorem nextId_onStore (j : Nat) {f : Store V → System V × Answer V}
    (hf : ∀ s, (f s).1.nextId i = sys.nextId i) : (sys.onStore j f).1.nextId i = sys.nextId i :=
  onStore_induction (P := fun after => after.nextId i = sys.nextId i) j rfl fun s _ => hf s

theorem nextId_discard (sys : System V) (i : Nat) (name : String) :
    (sys.discard name).1.nextId i = sys.nextId i :=
  nextId_onTxn name fun _ _ => rfl

/-- Nothing but opening a transaction takes an identity, and taking one for no purpose. -/
theorem nextId_act (sys : System V) (i : Nat) (ha : a.takesId = false) :
    (sys.act a).1.nextId i = sys.nextId i := by
  cases a with
  | get name key => exact nextId_onTxn name fun _ _ => rfl
  | set name key value => exact nextId_onTxn name fun _ _ => rfl
  | commit name ts => exact nextId_onTxn name fun _ _ => rfl
  | discard name => exact nextId_discard sys i name
  | openScan name lower upper dir => exact nextId_onTxn name fun _ _ => rfl
  | nextItem n =>
    exact onScan_induction (P := fun after => after.nextId i = sys.nextId i) n rfl
      fun _ _ _ _ _ _ _ => rfl
  | closeScan n => rfl
  | gc j => exact nextId_onStore j fun _ => rfl
  | advanceWatermark j ts => exact nextId_onStore j fun _ => rfl
  | _ => cases ha

theorem nextId_openTxn (h : 0 < sys.nextId i) (name : String) (readTs : Timestamp) (update : Bool) :
    (sys.openTxn i name readTs update).1.nextId i = sys.nextId i + 1 := by
  have hdiscard := nextId_discard sys i name
  obtain ⟨after, hid, hnext, -⟩ := exists_takeId (hdiscard.symm ▸ h)
  rw [hdiscard] at hnext
  unfold System.openTxn
  dsimp only
  rw [hid]
  refine Eq.trans ?_ hnext
  exact nextId_onStore i fun _ => rfl

theorem nextId_le_act (h : sys.Sound) (i : Nat) (a : Action V) :
    sys.nextId i ≤ (sys.act a).1.nextId i :=
  Cell.steps_next ((h.act a).steps i [])

/-- Of two identities given to transactions of a store the later one is higher. -/
theorem idsOn_ascend (h : sys.Sound) (hpos : 0 < sys.nextId i) (run : List (Action V)) :
    (∀ id ∈ idsOn i sys run, sys.nextId i ≤ id) ∧ (idsOn i sys run).Pairwise (· < ·) := by
  induction run generalizing sys with
  | nil => exact ⟨by simp [idsOn], .nil⟩
  | cons a run ih =>
    have hle := nextId_le_act h i a
    obtain ⟨hrest, hascend⟩ := ih (h.act a).sound (hpos.trans_le hle)
    unfold idsOn
    cases hid : sys.newId? i a with
    | none => exact ⟨fun id hmem => hle.trans (hrest id hmem), hascend⟩
    | some id =>
      cases a with
      | openTxn j name readTs update =>
        have hj : j = i := by
          by_contra hj
          simp [newId?, hj] at hid
        subst hj
        have hnew : sys.nextId j = id := by simpa [newId?] using hid
        have hnext : (sys.act (.openTxn j name readTs update)).1.nextId j = sys.nextId j + 1 :=
          nextId_openTxn hpos name readTs update
        rw [hnext, hnew] at hrest
        refine ⟨?_, List.pairwise_cons.2 ⟨hrest, hascend⟩⟩
        intro id' hmem
        rcases List.mem_cons.1 hmem with rfl | hmem
        · exact hnew.le
        · exact hnew.le.trans (Nat.le_of_succ_le (hrest id' hmem))
      | _ => cases hid

/-- Identities that are all different can be exchanged for consecutive ones, in the order in which they
    are listed, so that no two identities become the same. -/
theorem exists_renaming {ids : List Nat} (h : ids.Nodup) (first : Nat) :
    ∃ ρ : Nat → Nat, ρ.Injective ∧ ids.map ρ = List.range' first ids.length := by
  refine ⟨fun id => if id ∈ ids then first + ids.idxOf id else first + ids.length + id, ?_, ?_⟩
  · intro id id' heq
    by_cases hmem : id ∈ ids
    · by_cases hmem' : id' ∈ ids
      · have hidx : ids.idxOf id = ids.idxOf id' := by simpa [hmem, hmem'] using heq
        exact (List.idxOf_inj hmem).1 hidx
      · have hlt := List.idxOf_lt_length_iff.2 hmem
        simp only [hmem, hmem', if_true, if_false] at heq
        omega
    · by_cases hmem' : id' ∈ ids
      · have hlt := List.idxOf_lt_length_iff.2 hmem'
        simp only [hmem, hmem', if_true, if_false] at heq
        omega
      · simpa [hmem, hmem'] using heq
  · refine List.ext_getElem (by simp) fun k hk _ => ?_
    have hk : k < ids.length := by simpa using hk
    simp [h.idxOf_getElem k hk]

/-! ### A store among others and alone -/

/-- In `σ` there is store `i` of `sys` alone, with the transactions that are open on it and with its
    scans, under other identities. -/
structure Mirrors (ρ : TxnId → TxnId) (i : Nat) (mine : List Nat) (sys σ : System V) : Prop where
  stores : ∃ s, sys.stores[i]? = some s ∧ σ.stores = [s.renamed ρ]
  txns : ∀ name, σ.txns.find name = (txnOn? sys.txns i name).map fun t => ⟨0, t.renamed ρ⟩
  scans : ∀ k : Nat, σ.scans.find k = mine[k]?.bind sys.scans.find
  nextScan : σ.nextScan = mine.length

/-- The same was answered but for identities, and the one system still mirrors the other. -/
structure Follows (ρ : TxnId → TxnId) (i : Nat) (mine : List Nat) (r r' : System V × Answer V) :
    Prop where
  answer_eq : r'.2.anonymous = r.2.anonymous
  mirrors : Mirrors ρ i mine r.1 r'.1

theorem mirrors_start {configs : List Config} {config : Config} (h : configs[i]? = some config)
    (ρ : TxnId → TxnId) (shared : Bool) :
    (start configs shared : System V).Mirrors ρ i [] (start [config] false) := by
  have hstore : (start configs shared : System V).stores[i]? = some (.empty config) := by
    show (configs.map Store.empty)[i]? = _
    rw [List.getElem?_map, h]
    rfl
  refine ⟨⟨_, hstore, ?_⟩, fun _ => rfl, fun _ => rfl, rfl⟩
  rw [Store.renamed_empty]
  rfl

namespace Mirrors

/-- What is to be seen of the store is to be seen of the one that is alone. -/
theorem observation_eq (h : sys.Mirrors ρ i mine σ) (hpos : 0 < sys.nextId i) (hpos' : 0 < σ.nextId 0)
    {answer answer' : Answer V} (hanswer : answer'.anonymous = answer.anonymous) :
    σ.observation 0 answer' = sys.observation i answer := by
  have hsource : ∀ {r : System V} {j : Nat}, 0 < r.nextId j → ∃ b, r.source? j = some b := by
    intro r j hr
    unfold nextId at hr
    cases hb : r.source? j with
    | none =>
      rw [hb] at hr
      exact absurd hr (lt_irrefl 0)
    | some b => exact ⟨b, rfl⟩
  obtain ⟨b, hb⟩ := hsource hpos
  obtain ⟨b', hb'⟩ := hsource hpos'
  obtain ⟨s, hs, hσ⟩ := h.stores
  have hs' : σ.stores[0]? = some (s.renamed ρ) := by
    rw [hσ]
    rfl
  unfold observation StoreScript.figures
  rw [hanswer, hs, hs', hb, hb']
  rfl

theorem of_sameFor (h : sys.Mirrors ρ i mine σ) (hsame : SameFor i mine sys sys') :
    sys'.Mirrors ρ i mine σ := by
  obtain ⟨s, hs, hσ⟩ := h.stores
  refine ⟨⟨s, hsame.store_eq.trans hs, hσ⟩, fun name => ?_, fun k => ?_, h.nextScan⟩
  · rw [h.txns name, hsame.txns_eq name]
  · rw [h.scans k]
    cases hn : mine[k]? with
    | none => rfl
    | some n => exact (hsame.scans_eq n (List.mem_of_getElem? hn)).symm

theorem setStore (h : sys.Mirrors ρ i mine σ) (s' : Store V) :
    (sys.setStore i s').Mirrors ρ i mine (σ.setStore 0 (s'.renamed ρ)) := by
  obtain ⟨s, hs, hσ⟩ := h.stores
  have hlt : i < sys.stores.length := (List.getElem?_eq_some_iff.1 hs).1
  refine ⟨⟨s', List.getElem?_set_self hlt, ?_⟩, h.txns, h.scans, h.nextScan⟩
  show σ.stores.set 0 (s'.renamed ρ) = _
  rw [hσ]
  rfl

theorem unbind (h : sys.Mirrors ρ i mine σ) (name : String) (reclaimed reclaimed' : Nat) :
    Mirrors ρ i mine { sys with txns := sys.txns.unbind name, reclaimed := reclaimed }
      { σ with txns := σ.txns.unbind name, reclaimed := reclaimed' } := by
  refine ⟨h.stores, fun other => ?_, h.scans, h.nextScan⟩
  show (σ.txns.unbind name).find other = (txnOn? (sys.txns.unbind name) i other).map _
  rw [Bindings.find_unbind, txnOn?_unbind, h.txns]
  split <;> rfl

theorem bind (h : sys.Mirrors ρ i mine σ) (name : String) (t : Txn V) :
    Mirrors ρ i mine { sys with txns := sys.txns.bind name ⟨i, t⟩ }
      { σ with txns := σ.txns.bind name ⟨0, t.renamed ρ⟩ } := by
  refine ⟨h.stores, fun other => ?_, h.scans, h.nextScan⟩
  show (σ.txns.bind name _).find other = (txnOn? (sys.txns.bind name _) i other).map _
  rw [Bindings.find_bind, txnOn?_bind, h.txns, if_pos rfl]
  split <;> rfl

theorem onStore (h : sys.Mirrors ρ i mine σ) {f f' : Store V → System V × Answer V}
    {mine' : List Nat} (hf : ∀ s, sys.stores[i]? = some s → Follows ρ i mine' (f s) (f' (s.renamed ρ))) :
    Follows ρ i mine' (sys.onStore i f) (σ.onStore 0 f') := by
  obtain ⟨s, hs, hσ⟩ := h.stores
  unfold System.onStore
  rw [hs, hσ]
  exact hf s hs

theorem onTxn (h : sys.Mirrors ρ i mine σ) (ht : txnOn? sys.txns i name = some t)
    {f f' : OpenTxn V → Store V → System V × Answer V} {mine' : List Nat}
    (hf : ∀ s, sys.stores[i]? = some s →
      Follows ρ i mine' (f ⟨i, t⟩ s) (f' ⟨0, t.renamed ρ⟩ (s.renamed ρ))) :
    Follows ρ i mine' (sys.onTxn name f) (σ.onTxn name f') := by
  have hfind' : σ.txns.find name = some ⟨0, t.renamed ρ⟩ := by rw [h.txns, ht, Option.map_some]
  unfold System.onTxn
  rw [txnOn?_eq_some.1 ht, hfind']
  exact h.onStore hf

/-- What is done to the stores and transactions besides is of no matter. -/
theorem congr (h : sys.Mirrors ρ i mine σ) (hstores : sys'.stores = sys.stores)
    (htxns : sys'.txns = sys.txns) (hscans : sys.SameScans sys') (hstores' : σ'.stores = σ.stores)
    (htxns' : σ'.txns = σ.txns) (hscans' : σ.SameScans σ') : sys'.Mirrors ρ i mine σ' := by
  obtain ⟨hscans, -⟩ := hscans
  obtain ⟨hscans', hnext'⟩ := hscans'
  refine ⟨?_, ?_, ?_, hnext'.trans h.nextScan⟩
  · rw [hstores, hstores']
    exact h.stores
  · rw [htxns, htxns']
    exact h.txns
  · rw [hscans, hscans']
    exact h.scans

/-! ### Actions on the store -/

theorem discard_on (h : sys.Mirrors ρ i mine σ) (ht : txnOn? sys.txns i name = some t) :
    Follows ρ i mine (sys.act (.discard name)) (σ.act (.discard name)) := by
  refine h.onTxn ht fun s _ => ⟨rfl, ?_⟩
  rw [Store.discard_renamed]
  exact (h.setStore _).unbind name _ _

/-- Whether or not there is a transaction to discard. -/
theorem discard (h : sys.Mirrors ρ i mine σ) (name : String) :
    (sys.discard name).1.Mirrors ρ i mine (σ.discard name).1 := by
  cases ht : txnOn? sys.txns i name with
  | some t => exact (h.discard_on ht).mirrors
  | none =>
    have hnone : σ.txns.find name = none := by rw [h.txns, ht, Option.map_none]
    have hsame : (σ.discard name).1 = σ := congrArg Prod.fst (act_of_find_none hnone).1
    rw [hsame]
    exact h.of_sameFor (.discard ht)

theorem get (h : sys.Mirrors ρ i mine σ) (hρ : ρ.Injective)
    (ht : txnOn? sys.txns i name = some t) (key : Key) :
    Follows ρ i mine (sys.act (.get name key)) (σ.act (.get name key)) := by
  refine h.onTxn ht fun s _ => ?_
  rw [Store.get_renamed hρ]
  exact ⟨rfl, h.setStore _⟩

theorem set (h : sys.Mirrors ρ i mine σ) (hρ : ρ.Injective)
    (ht : txnOn? sys.txns i name = some t) (key : Key) (value : V) :
    Follows ρ i mine (sys.act (.set name key value)) (σ.act (.set name key value)) := by
  refine h.onTxn ht fun s _ => ?_
  rw [Store.set_renamed hρ]
  exact ⟨rfl, (h.setStore _).bind name _⟩

theorem commit (h : sys.Mirrors ρ i mine σ) (ht : txnOn? sys.txns i name = some t)
    (ts : Timestamp) : Follows ρ i mine (sys.act (.commit name ts)) (σ.act (.commit name ts)) := by
  refine h.onTxn ht fun s _ => ?_
  rw [Store.commit_renamed]
  exact ⟨rfl, (h.setStore _).unbind name _ _⟩

theorem gc (h : sys.Mirrors ρ i mine σ) :
    Follows ρ i mine (sys.act (.gc i)) (σ.act (.gc 0)) := by
  refine h.onStore fun s _ => ?_
  rw [Store.gc_renamed]
  have hset := h.setStore s.gc.1
  exact ⟨rfl, hset.congr rfl rfl ⟨rfl, rfl⟩ rfl rfl ⟨rfl, rfl⟩⟩

theorem advanceWatermark (h : sys.Mirrors ρ i mine σ) (ts : Timestamp) :
    Follows ρ i mine (sys.act (.advanceWatermark i ts)) (σ.act (.advanceWatermark 0 ts)) :=
  h.onStore fun s _ => ⟨rfl, h.setStore (s.advanceWatermark ts)⟩

theorem openTxn (h : sys.Mirrors ρ i mine σ) (hpos : 0 < sys.nextId i) (hpos' : 0 < σ.nextId 0)
    (hid : ρ (sys.nextId i) = σ.nextId 0) (name : String) (readTs : Timestamp) (update : Bool) :
    Follows ρ i mine (sys.act (.openTxn i name readTs update))
      (σ.act (.openTxn 0 name readTs update)) := by
  have hdiscard := h.discard name
  have hsame := nextId_discard sys i name
  have hsame' := nextId_discard σ 0 name
  obtain ⟨after, htake, -, hscans⟩ := exists_takeId (hsame.symm ▸ hpos)
  obtain ⟨after', htake', -, hscans'⟩ := exists_takeId (hsame'.symm ▸ hpos')
  obtain ⟨hstores, htxns, -⟩ := takeId_spec htake
  obtain ⟨hstores', htxns', -⟩ := takeId_spec htake'
  have htaken : after.Mirrors ρ i mine after' :=
    hdiscard.congr hstores htxns hscans hstores' htxns' hscans'
  rw [hsame] at htake
  rw [hsame', ← hid] at htake'
  show Follows ρ i mine (sys.openTxn i name readTs update) (σ.openTxn 0 name readTs update)
  unfold System.openTxn
  dsimp only
  rw [htake, htake']
  refine htaken.onStore fun s _ => ⟨rfl, ?_⟩
  rw [Store.openTxn_renamed]
  exact (htaken.setStore _).bind name _

theorem openScan (h : sys.Mirrors ρ i mine σ) (hmine : sys.Scanning i mine)
    (ht : txnOn? sys.txns i name = some t) (lower upper : Option Key) (dir : Direction) :
    Follows ρ i (mine ++ [sys.nextScan]) (sys.act (.openScan name lower upper dir))
      (σ.act (.openScan name lower upper dir)) := by
  refine h.onTxn ht fun s _ => ⟨rfl, h.stores, h.txns, fun k => ?_, ?_⟩
  · show (σ.scans.bind σ.nextScan _).find k =
      (mine ++ [sys.nextScan])[k]?.bind (sys.scans.bind sys.nextScan _).find
    rw [Bindings.find_bind, h.nextScan]
    split
    · rename_i hk
      subst hk
      simp [Bindings.find_bind_self]
    · rename_i hk
      rw [h.scans]
      rcases lt_or_gt_of_ne hk with hlt | hgt
      · have hold : mine[k] < sys.nextScan := hmine.lt _ (List.getElem_mem hlt)
        simp [List.getElem?_append_left, hlt, Bindings.find_bind_of_ne _ _ hold.ne]
      · have hnone : mine[k]? = none := List.getElem?_eq_none hgt.le
        have hnone' : (mine ++ [sys.nextScan])[k]? = none := by
          refine List.getElem?_eq_none ?_
          simpa using hgt
        rw [hnone, hnone']
        rfl
  · show σ.nextScan + 1 = (mine ++ [sys.nextScan]).length
    rw [h.nextScan, List.length_append]
    rfl

/-- What a scan of the store stands for when it goes on or is closed. -/
theorem find_idxOf (h : sys.Mirrors ρ i mine σ) {n : Nat} (hn : n ∈ mine) :
    σ.scans.find (mine.idxOf n) = sys.scans.find n := by
  rw [h.scans, List.getElem?_idxOf hn]
  rfl

theorem nextItem (h : sys.Mirrors ρ i mine σ) (hρ : ρ.Injective) (hmine : sys.Scanning i mine)
    {n : Nat} {scan : OpenScan} (hscan : sys.scans.find n = some scan)
    (ht : txnOn? sys.txns i scan.txn = some t) :
    Follows ρ i mine (sys.act (.nextItem n)) (σ.act (.nextItem (mine.idxOf n))) := by
  have hn := hmine.mem_of_target hscan ht
  have hscan' : σ.scans.find (mine.idxOf n) = some scan := (h.find_idxOf hn).trans hscan
  show Follows ρ i mine (sys.onScan n _) (σ.onScan (mine.idxOf n) _)
  unfold System.onScan
  rw [hscan, hscan']
  refine h.onTxn ht fun s _ => ?_
  dsimp only
  rw [Store.scanNext_renamed hρ]
  have hset := h.setStore (s.scanNext t scan.cursor).store
  refine ⟨rfl, hset.stores, hset.txns, fun k => ?_, h.nextScan⟩
  show (σ.scans.bind (mine.idxOf n) _).find k = mine[k]?.bind (sys.scans.bind n _).find
  rw [Bindings.find_bind]
  split
  · rename_i hk
    subst hk
    rw [List.getElem?_idxOf hn]
    exact (Bindings.find_bind_self _ _ _).symm
  · rename_i hk
    rw [h.scans]
    cases hm : mine[k]? with
    | none => rfl
    | some m => exact (Bindings.find_bind_of_ne _ _ (hmine.ne_of_idxOf hk hm)).symm

theorem closeScan (h : sys.Mirrors ρ i mine σ) (hmine : sys.Scanning i mine) {n : Nat}
    (hn : n ∈ mine) :
    Follows ρ i mine (sys.act (.closeScan n)) (σ.act (.closeScan (mine.idxOf n))) := by
  refine ⟨rfl, h.stores, h.txns, fun k => ?_, h.nextScan⟩
  show (σ.scans.unbind (mine.idxOf n)).find k = mine[k]?.bind (sys.scans.unbind n).find
  rw [Bindings.find_unbind]
  split
  · rename_i hk
    subst hk
    rw [List.getElem?_idxOf hn]
    exact (Bindings.find_unbind_self _ _).symm
  · rename_i hk
    rw [h.scans]
    cases hm : mine[k]? with
    | none => rfl
    | some m => exact (Bindings.find_unbind_of_ne _ (hmine.ne_of_idxOf hk hm)).symm

/-- What is done to the store is answered in the same way where the store is alone. -/
theorem act (h : sys.Mirrors ρ i mine σ) (hρ : ρ.Injective) (hmine : sys.Scanning i mine)
    (hsound : sys.Sound) (hpos : 0 < sys.nextId i) (hpos' : 0 < σ.nextId 0)
    (hid : ∀ id ∈ sys.newId? i a, ρ id = σ.nextId 0) (hown : sys.own? i mine a = some own) :
    Follows ρ i (sys.ownScans i mine a) ((sys.act a).1, ownAnswer i a (sys.act a).2) (σ.act own) := by
  cases a with
  | openTxn j name readTs update =>
    by_cases hj : j = i
    · subst hj
      have howned : Action.openTxn 0 name readTs update = own := by simpa [own?] using hown
      subst howned
      have hid := hid (sys.nextId j) (by simp [newId?])
      rw [ownAnswer, if_pos rfl]
      exact h.openTxn hpos hpos' hid name readTs update
    · obtain ⟨⟨t, ht⟩, rfl⟩ : (∃ t, txnOn? sys.txns i name = some t) ∧ .discard name = own := by
        simpa [own?, hj, Option.isSome_iff_exists] using hown
      -- once the transaction is discarded, the rest happens elsewhere
      obtain ⟨s, hs, -⟩ := h.stores
      have hfind := txnOn?_eq_some.1 ht
      have hdone : (sys.act (.discard name)).2 = .done := congrArg Prod.snd (act_discard hfind hs)
      obtain ⟨hanswer, hmirrors⟩ := h.discard_on ht
      have hfree : txnOn? (sys.act (.discard name)).1.txns i name = none :=
        congrArg (Option.bind · _) (hsound.find_discard name)
      rw [act_openTxn_eq, ownAnswer, if_neg hj, ← hdone]
      exact ⟨hanswer, hmirrors.of_sameFor (.openTxn hj hfree readTs update)⟩
  | get name key =>
    obtain ⟨rfl, t, ht⟩ := exists_txnOn?_of_own? hown
    exact h.get hρ ht key
  | set name key value =>
    obtain ⟨rfl, t, ht⟩ := exists_txnOn?_of_own? hown
    exact h.set hρ ht key value
  | commit name ts =>
    obtain ⟨rfl, t, ht⟩ := exists_txnOn?_of_own? hown
    exact h.commit ht ts
  | discard name =>
    obtain ⟨rfl, t, ht⟩ := exists_txnOn?_of_own? hown
    exact h.discard_on ht
  | openScan name lower upper dir =>
    obtain ⟨rfl, t, ht⟩ := exists_txnOn?_of_own? hown
    have hscans : sys.ownScans i mine (.openScan name lower upper dir) = mine ++ [sys.nextScan] := by
      simp [ownScans, ht]
    rw [hscans]
    exact h.openScan hmine ht lower upper dir
  | nextItem n =>
    obtain ⟨htarget, howned⟩ := Option.ite_none_right_eq_some.1 hown
    cases howned
    obtain ⟨scan, hscan, t, ht⟩ := exists_scan_of_target? htarget
    exact h.nextItem hρ hmine hscan ht
  | closeScan n =>
    obtain ⟨htarget, howned⟩ := Option.ite_none_right_eq_some.1 hown
    cases howned
    obtain ⟨scan, hscan, t, ht⟩ := exists_scan_of_target? htarget
    exact h.closeScan hmine (hmine.mem_of_target hscan ht)
  | gc j =>
    obtain ⟨htarget, howned⟩ := Option.ite_none_right_eq_some.1 hown
    cases howned
    obtain rfl : j = i := Option.some_inj.1 htarget
    exact h.gc
  | advanceWatermark j ts =>
    obtain ⟨htarget, howned⟩ := Option.ite_none_right_eq_some.1 hown
    cases howned
    obtain rfl : j = i := Option.some_inj.1 htarget
    exact h.advanceWatermark ts
  | takeId j => cases hown

end Mirrors

/-! ### Identities of a store that is alone -/

/-- What is done to a store that is alone takes an identity when the run among others does. -/
theorem nextId_own (hpos : 0 < σ.nextId 0) (hown : sys.own? i mine a = some own) :
    (σ.act own).1.nextId 0 = σ.nextId 0 + (sys.newId? i a).toList.length := by
  cases a with
  | openTxn j name readTs update =>
    by_cases hj : j = i
    · have howned : Action.openTxn 0 name readTs update = own := by simpa [own?, hj] using hown
      have hid : (sys.newId? i (.openTxn j name readTs update)).toList.length = 1 := by
        simp [newId?, hj]
      rw [hid, ← howned]
      exact nextId_openTxn hpos name readTs update
    · obtain ⟨-, rfl⟩ : (∃ t, txnOn? sys.txns i name = some t) ∧ .discard name = own := by
        simpa [own?, hj, Option.isSome_iff_exists] using hown
      have hid : (sys.newId? i (.openTxn j name readTs update)).toList.length = 0 := by
        simp [newId?, hj]
      rw [hid]
      exact nextId_discard σ 0 name
  | takeId j => cases hown
  | _ =>
    obtain ⟨-, howned⟩ := Option.ite_none_right_eq_some.1 hown
    cases howned
    exact nextId_act σ 0 rfl

/-! ### Runs -/

theorem newId?_of_own? (hown : sys.own? i mine a = none) : sys.newId? i a = none := by
  cases a with
  | openTxn j name readTs update =>
    have hj : j ≠ i := by
      rintro rfl
      simp [own?] at hown
    simp [newId?, hj]
  | _ => rfl

theorem ownScans_of_own? (hown : sys.own? i mine a = none) : sys.ownScans i mine a = mine := by
  cases a with
  | openScan name lower upper dir =>
    have hfree := txnOn?_of_own? hown
    simp [ownScans, hfree]
  | _ => rfl

/-- If consecutive identities stand for those given in a run, then they do for the first action and for
    the rest of the run. -/
theorem ids_cons {run : List (Action V)} {first : TxnId}
    (h : (idsOn i sys (a :: run)).map ρ = List.range' first (idsOn i sys (a :: run)).length) :
    (∀ id ∈ sys.newId? i a, ρ id = first) ∧
      (idsOn i (sys.act a).1 run).map ρ = List.range' (first + (sys.newId? i a).toList.length)
        (idsOn i (sys.act a).1 run).length := by
  rw [idsOn, List.map_append, List.length_append, ← List.range'_append_1] at h
  obtain ⟨hnew, hrest⟩ := List.append_inj h (by simp)
  refine ⟨?_, hrest⟩
  intro id hid
  rw [Option.mem_def.1 hid] at hnew
  exact List.head_eq_of_cons_eq hnew

/-- A store is answered in a run as if nothing were done but what is done to it. -/
theorem Mirrors.record_eq (h : sys.Mirrors ρ i mine σ) (hρ : ρ.Injective)
    (hmine : sys.Scanning i mine) (hsound : sys.Sound) (hpos : 0 < sys.nextId i)
    (hpos' : 0 < σ.nextId 0) {run : List (Action V)} (hspare : sys.sparesAll run = true)
    (hids : (idsOn i sys run).map ρ = List.range' (σ.nextId 0) (idsOn i sys run).length) :
    record i mine sys run = σ.recordAlone ((record i mine sys run).map Prod.fst) := by
  induction run generalizing sys σ mine with
  | nil => rfl
  | cons a run ih =>
    obtain ⟨hsparea, hspare⟩ := Bool.and_eq_true_iff.1 hspare
    obtain ⟨hid, hids⟩ := ids_cons hids
    have hmine' := hmine.act hsound hsparea
    have hsound' := (hsound.act a).sound
    have hlater := hpos.trans_le (nextId_le_act hsound i a)
    unfold record
    dsimp only
    cases hown : sys.own? i mine a with
    | none =>
      rw [newId?_of_own? hown] at hids
      rw [ownScans_of_own? hown] at hmine' ⊢
      exact ih (h.of_sameFor (hmine.sameFor hown)) hmine' hsound' hlater hpos' hspare hids
    | some own =>
      obtain ⟨hanswer, hmirrors⟩ := h.act hρ hmine hsound hpos hpos' hid hown
      rw [← nextId_own hpos' hown] at hids
      have hlater' : 0 < (σ.act own).1.nextId 0 := by
        rw [nextId_own hpos' hown]
        exact Nat.add_pos_left hpos' _
      have hrest := ih hmirrors hmine' hsound' hlater hlater' hspare hids
      have hobserved := hmirrors.observation_eq hlater hlater' hanswer
      simp only [List.map_cons, recordAlone, hobserved, ← hrest]

/-- What is done to a store is answered and leaves to be seen what it would if the store were the only
    one there is. -/
theorem record_eq_alone {configs : List Config} {config : Config} (hconfig : configs[i]? = some config)
    (shared : Bool) {run : List (Action V)} (hspare : (start configs shared).sparesAll run = true) :
    record i [] (start configs shared) run =
      (start [config] false).recordAlone ((start configs shared).actionsOn i run) := by
  have hsound := sound_start (V := V) configs shared
  have hnext := nextId_start (V := V) hconfig shared
  have halone : (start [config] false : System V).nextId 0 = 1 := rfl
  obtain ⟨-, hascend⟩ := idsOn_ascend hsound (hnext.symm ▸ Nat.one_pos) run
  obtain ⟨ρ, hρ, hids⟩ := exists_renaming (hascend.imp fun hlt => hlt.ne) 1
  exact (mirrors_start hconfig ρ shared).record_eq hρ (scanning_start configs shared i) hsound
    (hnext.symm ▸ Nat.one_pos) (halone.symm ▸ Nat.one_pos) hspare (halone.symm ▸ hids)

/-- Stores that share their identities do not interfere. If two runs do the same to a store, whatever
    they do to others and however many identities they take besides, then the same is observed of the
    store: every answer but for identities, and everything there is to be seen of it after each action.
    This is so for stores at any place among any others, as long as no transaction ends while a scan by
    it is open. -/
theorem observationsOn_eq (configs configs' : List Config) (shared shared' : Bool) (config : Config)
    (i i' : Nat) (hconfig : configs[i]? = some config) (hconfig' : configs'[i']? = some config)
    (run run' : List (Action V)) (hspare : (start configs shared).sparesAll run = true)
    (hspare' : (start configs' shared').sparesAll run' = true)
    (hsame : (start configs' shared').actionsOn i' run' = (start configs shared).actionsOn i run) :
    (start configs' shared').observationsOn i' run' = (start configs shared).observationsOn i run := by
  unfold observationsOn
  rw [record_eq_alone hconfig shared hspare, record_eq_alone hconfig' shared' hspare', hsame]

/-- Readers, writers and a scan meet on a store. In the second run another store takes identities and
    has scans in between, and a transaction is discarded because its name is given away there. -/
theorem observationsOn_eq_beside_another :
    (start [⟨false, 2⟩, ⟨true, 2⟩] true : System Nat).observationsOn 1
        [.takeId 1, .openTxn 0 "x" 3 true, .openTxn 1 "a" 5 true, .set "x" [1] 7, .set "a" [1, 2] 9,
          .openTxn 1 "b" 5 true, .get "b" [1, 2], .openScan "x" none none .forward, .commit "a" 6,
          .takeId 0, .openTxn 1 "c" 8 true, .openScan "c" none none .backward, .nextItem 0,
          .nextItem 1, .set "b" [1, 2] 4, .closeScan 1, .closeScan 0, .commit "x" 4,
          .set "c" [1, 2] 10, .openTxn 0 "c" 9 true, .set "c" [1, 2] 3, .get "b" [1, 2], .gc 1] =
      (start [⟨true, 2⟩] false : System Nat).observationsOn 0
        [.openTxn 0 "a" 5 true, .set "a" [1, 2] 9, .openTxn 0 "b" 5 true, .get "b" [1, 2],
          .commit "a" 6, .openTxn 0 "c" 8 true, .openScan "c" none none .backward, .nextItem 0,
          .set "b" [1, 2] 4, .closeScan 0, .set "c" [1, 2] 10, .discard "c", .get "b" [1, 2],
          .gc 0] :=
  observationsOn_eq _ _ _ _ ⟨true, 2⟩ 0 1 rfl rfl _ _ (by decide +kernel) (by decide +kernel)
    (by decide +kernel)

end System

end RadixStore
