import Mathlib
import RadixStore.Proofs.Store.System
import RadixStore.Proofs.Store.Trimmed

/-!
# Nobody notices the trimming

Two systems are alike when their stores are, once thoroughly trimmed, and everything else about them
is the same. In systems that are alike every action but a sweep answers the same and leaves systems
that are alike, as long as no transaction is opened below the watermark; a sweep leaves a system that
is like the one before. So the answers of a run do not depend on the sweeps in it, nor on the
configurations.
-/

namespace RadixStore

variable {V : Type}

/-- To discard pending writes moves no watermark. -/
theorem Store.watermark_withdraw (s : Store V) (writes : List (Key × Pending V)) :
    (s.withdraw writes).watermark = s.watermark := by
  unfold withdraw
  induction writes generalizing s with
  | nil => rfl
  | cons w writes ih => exact ih _

/-- Whether the action is a sweep. -/
def Action.isSweep : Action V → Bool
  | .gc _ => true
  | _ => false

namespace System

/-! ### Two systems that have something in common -/

section Two

variable {sys sys' : System V}

/-- What holds of two systems in which an action finds no store, and of what it makes of stores of
    which `view` shows the same, holds of what it makes of systems of which it shows the same. -/
theorem onStore_rel {α : Type} {view : Store V → α}
    {P : System V × Answer V → System V × Answer V → Prop}
    (hstores : sys'.stores.map view = sys.stores.map view) (i : Nat)
    {f f' : Store V → System V × Answer V} (hnone : P (sys, .unknown) (sys', .unknown))
    (hf : ∀ s s', sys.stores[i]? = some s → sys'.stores[i]? = some s' → view s' = view s →
      P (f s) (f' s')) : P (sys.onStore i f) (sys'.onStore i f') := by
  have hstore : (sys'.stores[i]?).map view = (sys.stores[i]?).map view := by
    rw [← List.getElem?_map, ← List.getElem?_map, hstores]
  unfold System.onStore
  cases hs : sys.stores[i]? with
  | none =>
    rw [hs] at hstore
    rw [Option.map_eq_none_iff.1 hstore]
    exact hnone
  | some s =>
    rw [hs] at hstore
    obtain ⟨s', hs', hview⟩ := Option.map_eq_some_iff.1 hstore
    rw [hs']
    exact hf s s' hs hs' hview

/-- From the same sources the same identity is taken. -/
theorem takeId_rel (hsources : sys'.sources = sys.sources) (hshared : sys'.shared = sys.shared)
    (i : Nat) : (sys.takeId i = none ∧ sys'.takeId i = none) ∨
      ∃ id sources, sys.takeId i = some (id, { sys with sources := sources }) ∧
        sys'.takeId i = some (id, { sys' with sources := sources }) := by
  have hof : sys'.sourceOf i = sys.sourceOf i := by
    unfold sourceOf
    rw [hshared]
  have hsource : sys'.source? i = sys.source? i := by
    unfold source?
    rw [hsources, hof]
  unfold System.takeId
  rw [hsource, hof, hsources]
  cases sys.source? i with
  | none => exact Or.inl ⟨rfl, rfl⟩
  | some a => exact Or.inr ⟨_, _, rfl, rfl⟩

end Two

/-! ### Systems that differ by trimming -/

/-- The systems are the same but for trimming, configurations and the count of what was trimmed. -/
structure Alike (sys sys' : System V) : Prop where
  stores_eq : sys'.stores.map Store.trimmed = sys.stores.map Store.trimmed
  sources_eq : sys'.sources = sys.sources
  shared_eq : sys'.shared = sys.shared
  txns_eq : sys'.txns = sys.txns
  scans_eq : sys'.scans = sys.scans
  nextScan_eq : sys'.nextScan = sys.nextScan

/-- The same was answered, and the systems afterwards are alike. -/
structure Matches (r r' : System V × Answer V) : Prop where
  answer_eq : r'.2 = r.2
  alike : r.1.Alike r'.1

variable {sys sys' : System V} {i : Nat} {s s' : Store V} {name : String} {t : Txn V}

theorem Alike.refl (sys : System V) : sys.Alike sys :=
  ⟨rfl, rfl, rfl, rfl, rfl, rfl⟩

theorem Alike.trans {sys'' : System V} (h : sys.Alike sys') (h' : sys'.Alike sys'') :
    sys.Alike sys'' :=
  ⟨h'.stores_eq.trans h.stores_eq, h'.sources_eq.trans h.sources_eq,
    h'.shared_eq.trans h.shared_eq, h'.txns_eq.trans h.txns_eq, h'.scans_eq.trans h.scans_eq,
    h'.nextScan_eq.trans h.nextScan_eq⟩

theorem Alike.symm (h : sys.Alike sys') : sys'.Alike sys :=
  ⟨h.stores_eq.symm, h.sources_eq.symm, h.shared_eq.symm, h.txns_eq.symm, h.scans_eq.symm,
    h.nextScan_eq.symm⟩

theorem Alike.store (h : sys.Alike sys') (i : Nat) :
    (sys'.stores[i]?).map Store.trimmed = (sys.stores[i]?).map Store.trimmed := by
  rw [← List.getElem?_map, ← List.getElem?_map, h.stores_eq]

theorem Alike.setStore (h : sys.Alike sys') (hs : s'.trimmed = s.trimmed) (i : Nat) :
    (sys.setStore i s).Alike (sys'.setStore i s') := by
  refine ⟨?_, h.sources_eq, h.shared_eq, h.txns_eq, h.scans_eq, h.nextScan_eq⟩
  show (sys'.stores.set i s').map _ = (sys.stores.set i s).map _
  rw [List.map_set, List.map_set, h.stores_eq, hs]

theorem Alike.setTxns (h : sys.Alike sys') (txns : Bindings String (OpenTxn V))
    (reclaimed reclaimed' : Nat) :
    ({ sys with txns := txns, reclaimed := reclaimed } : System V).Alike
      { sys' with txns := txns, reclaimed := reclaimed' } :=
  ⟨h.stores_eq, h.sources_eq, h.shared_eq, rfl, h.scans_eq, h.nextScan_eq⟩

theorem Alike.setScans (h : sys.Alike sys') (scans : Bindings Nat OpenScan) :
    ({ sys with scans := scans } : System V).Alike { sys' with scans := scans } :=
  ⟨h.stores_eq, h.sources_eq, h.shared_eq, h.txns_eq, rfl, h.nextScan_eq⟩

/-- Trimming a store leaves a system like the one before. -/
theorem alike_setStore (hs : sys.stores[i]? = some s) (htrim : s'.trimmed = s.trimmed) :
    sys.Alike (sys.setStore i s') :=
  ⟨map_stores_setStore hs htrim, rfl, rfl, rfl, rfl, rfl⟩

/-! ### Actions on systems that are alike -/

theorem Matches.onStore (h : sys.Alike sys') (i : Nat) {f f' : Store V → System V × Answer V}
    (hf : ∀ s s', sys.stores[i]? = some s → sys'.stores[i]? = some s' → s'.trimmed = s.trimmed →
      Matches (f s) (f' s')) : Matches (sys.onStore i f) (sys'.onStore i f') :=
  onStore_rel h.stores_eq i ⟨rfl, h⟩ hf

theorem Matches.onTxn (h : sys.Alike sys') (name : String)
    {f f' : OpenTxn V → Store V → System V × Answer V}
    (hf : ∀ i t s s', sys.txns.find name = some ⟨i, t⟩ → sys.stores[i]? = some s →
      sys'.stores[i]? = some s' → s'.trimmed = s.trimmed →
      Matches (f ⟨i, t⟩ s) (f' ⟨i, t⟩ s')) :
    Matches (sys.onTxn name f) (sys'.onTxn name f') := by
  unfold System.onTxn
  rw [h.txns_eq]
  rcases hfind : sys.txns.find name with _ | ⟨i, t⟩
  · exact ⟨rfl, h⟩
  · exact Matches.onStore h i fun s s' hs hs' htrim => hf i t s s' hfind hs hs' htrim

theorem Matches.onScan (h : sys.Alike sys') (n : Nat)
    {f f' : OpenScan → OpenTxn V → Store V → System V × Answer V}
    (hf : ∀ scan i t s s', sys.txns.find scan.txn = some ⟨i, t⟩ → sys.stores[i]? = some s →
      sys'.stores[i]? = some s' → s'.trimmed = s.trimmed →
      Matches (f scan ⟨i, t⟩ s) (f' scan ⟨i, t⟩ s')) :
    Matches (sys.onScan n f) (sys'.onScan n f') := by
  unfold System.onScan
  rw [h.scans_eq]
  rcases sys.scans.find n with _ | scan
  · exact ⟨rfl, h⟩
  · exact Matches.onTxn h scan.txn fun i t s s' => hf scan i t s s'

/-! ### What is known of the transaction that acts -/

/-- The store of an open transaction is in good order with it, and its writes are drafts there. -/
theorem Reachable.openTxn (h : sys.Reachable) (hfind : sys.txns.find name = some ⟨i, t⟩)
    (hs : sys.stores[i]? = some s) :
    s.Sound (t ::ₘ openOn (sys.txns.unbind name) i) ∧ s.Drafted t := by
  obtain ⟨hopen, -⟩ := openOn_of_find h.sound.names hfind
  refine ⟨hopen ▸ h.sound.stores i s hs, ?_⟩
  intro key p hp
  obtain ⟨draft, hist, hholds⟩ := h.holds_find hfind hs key
  have hbacked : Backed (claims (t ::ₘ openOn (sys.txns.unbind name) i) key) draft hist :=
    hholds.backed
  obtain ⟨serial, rfl, hinstalled, -⟩ := hbacked.own hp
  exact ⟨_, _, hholds.shape, hinstalled, rfl, rfl⟩

/-! ### Actions other than sweeps -/

/-- The action does not open a transaction below the watermark of the store. -/
def honors (sys : System V) : Action V → Bool
  | .openTxn i _ readTs _ => sys.stores[i]?.all fun s => s.watermark ≤ readTs
  | _ => true

theorem Alike.honors_eq (h : sys.Alike sys') (a : Action V) : sys'.honors a = sys.honors a := by
  cases a with
  | openTxn i name readTs update =>
    have hstore := h.store i
    unfold honors
    dsimp only
    rcases hs : sys.stores[i]? with _ | s
    · rw [hs] at hstore
      rw [Option.map_eq_none_iff.1 hstore]
    · rw [hs] at hstore
      obtain ⟨s', hs', htrim⟩ := Option.map_eq_some_iff.1 hstore
      rw [hs']
      simp [(Store.of_trimmed_eq htrim).2.1]
  | _ => rfl

section Acting

variable (h : sys.Alike sys') (hr : sys.Reachable) (hr' : sys'.Reachable)

include h hr hr'

/-- The two stores of an open transaction, and what is known of it in both. -/
theorem Alike.openTxn (hfind : sys.txns.find name = some ⟨i, t⟩) (hs : sys.stores[i]? = some s)
    (hs' : sys'.stores[i]? = some s') :
    s.Sound (t ::ₘ openOn (sys.txns.unbind name) i) ∧
      s'.Sound (t ::ₘ openOn (sys.txns.unbind name) i) ∧ s.Drafted t ∧ s'.Drafted t := by
  obtain ⟨hsound, hdrafted⟩ := hr.openTxn hfind hs
  obtain ⟨hsound', hdrafted'⟩ := hr'.openTxn (h.txns_eq ▸ hfind) hs'
  rw [h.txns_eq] at hsound'
  exact ⟨hsound, hsound', hdrafted, hdrafted'⟩

theorem matches_discard (name : String) : Matches (sys.discard name) (sys'.discard name) := by
  refine Matches.onTxn h name fun i t s s' hfind hs hs' htrim => ⟨rfl, ?_⟩
  obtain ⟨hsound, hsound', hdrafted, hdrafted'⟩ := h.openTxn hr hr' hfind hs hs'
  have hstore := Store.trimmed_discard hsound hsound' hdrafted hdrafted' htrim
  rw [h.txns_eq]
  exact (h.setStore hstore i).setTxns _ _ _

theorem matches_get (name : String) (key : Key) :
    Matches (sys.act (.get name key)) (sys'.act (.get name key)) := by
  refine Matches.onTxn h name fun i t s s' hfind hs hs' htrim => ?_
  obtain ⟨hsound, hsound', -⟩ := h.openTxn hr hr' hfind hs hs'
  have hget := Store.get_trimmed (hsound.safepoint_le (Multiset.mem_cons_self t _)) key
  have hget' := Store.get_trimmed (hsound'.safepoint_le (Multiset.mem_cons_self t _)) key
  rw [htrim, hget] at hget'
  obtain ⟨hanswer, hstore⟩ := Prod.mk.inj hget'
  exact ⟨congrArg Answer.value hanswer.symm, h.setStore hstore.symm i⟩

theorem matches_set (name : String) (key : Key) (value : V) :
    Matches (sys.act (.set name key value)) (sys'.act (.set name key value)) := by
  refine Matches.onTxn h name fun i t s s' hfind hs hs' htrim => ?_
  obtain ⟨-, -, hdrafted, hdrafted'⟩ := h.openTxn hr hr' hfind hs hs'
  have hset := Store.set_trimmed hdrafted key value
  have hset' := Store.set_trimmed hdrafted' key value
  rw [htrim, hset] at hset'
  obtain ⟨hverdict, hstore, htxn⟩ := Store.SetResult.mk.inj hset'
  dsimp only
  rw [← hverdict, ← htxn, h.txns_eq]
  exact ⟨rfl, (h.setStore hstore.symm i).setTxns _ _ _⟩

theorem matches_commit (name : String) (ts : Timestamp) :
    Matches (sys.act (.commit name ts)) (sys'.act (.commit name ts)) := by
  refine Matches.onTxn h name fun i t s s' hfind hs hs' htrim => ?_
  obtain ⟨hsound, hsound', hdrafted, hdrafted'⟩ := h.openTxn hr hr' hfind hs hs'
  obtain ⟨hverdict, hstore⟩ := Store.trimmed_commit hsound hsound' hdrafted hdrafted' htrim ts
  dsimp only
  rw [h.txns_eq]
  exact ⟨congrArg Answer.verdict hverdict, (h.setStore hstore i).setTxns _ _ _⟩

theorem matches_nextItem (n : Nat) :
    Matches (sys.act (.nextItem n)) (sys'.act (.nextItem n)) := by
  refine Matches.onScan h n fun scan i t s s' hfind hs hs' htrim => ?_
  obtain ⟨hsound, hsound', -⟩ := h.openTxn hr hr' hfind hs hs'
  have hnext := Store.scanNext_trimmed (hsound.safepoint_le (Multiset.mem_cons_self t _)) scan.cursor
  have hnext' :=
    Store.scanNext_trimmed (hsound'.safepoint_le (Multiset.mem_cons_self t _)) scan.cursor
  rw [htrim, hnext] at hnext'
  obtain ⟨hitem, hcursor, hstore⟩ := ScanStep.mk.inj hnext'
  dsimp only
  rw [← hitem, ← hcursor, h.scans_eq]
  refine ⟨rfl, ?_⟩
  exact (h.setStore hstore.symm i).setScans _

end Acting

theorem Alike.setSources (h : sys.Alike sys') (sources : List IdSource) :
    ({ sys with sources := sources } : System V).Alike { sys' with sources := sources } :=
  ⟨h.stores_eq, rfl, h.shared_eq, h.txns_eq, h.scans_eq, h.nextScan_eq⟩

/-- To discard a transaction moves no watermark. -/
theorem watermark_discard (sys : System V) (name : String) :
    (sys.discard name).1.stores.map Store.watermark = sys.stores.map Store.watermark := by
  refine onTxn_induction (P := fun sys' => sys'.stores.map Store.watermark =
    sys.stores.map Store.watermark) name rfl fun i t s _ hs => ?_
  exact map_stores_setStore hs (Store.watermark_withdraw s t.writes)

theorem matches_openTxn (h : sys.Alike sys') (hr : sys.Reachable) (hr' : sys'.Reachable)
    (i : Nat) (name : String) (readTs : Timestamp) (update : Bool)
    (hhonors : sys.honors (.openTxn i name readTs update) = true) :
    Matches (sys.openTxn i name readTs update) (sys'.openTxn i name readTs update) := by
  have hdiscard := (matches_discard h hr hr' name).alike
  have hsound := (hr.act (.discard name)).sound
  have hwatermark : ∀ s, (sys.discard name).1.stores[i]? = some s → s.watermark ≤ readTs := by
    intro s hs
    have hmap := congrArg (·[i]?) (watermark_discard sys name)
    simp only [List.getElem?_map, hs, Option.map_some] at hmap
    obtain ⟨r, hr, heq⟩ := Option.map_eq_some_iff.1 hmap.symm
    rw [← heq]
    simpa [honors, hr] using hhonors
  have hsound : (sys.discard name).1.Sound := hsound
  unfold System.openTxn
  generalize (sys.discard name).1 = before at hdiscard hsound hwatermark
  generalize (sys'.discard name).1 = before' at hdiscard
  dsimp only
  rcases takeId_rel hdiscard.sources_eq hdiscard.shared_eq i with ⟨hnone, hnone'⟩ |
    ⟨id, sources, hid, hid'⟩
  · rw [hnone, hnone']
    exact ⟨rfl, hdiscard⟩
  · have halike := hdiscard.setSources sources
    rw [hid, hid']
    refine Matches.onStore halike i fun s s' hs hs' htrim => ?_
    have hbefore : before.stores[i]? = some s := hs
    have hopen := Store.trimmed_openTxn (hsound.stores i s hbefore).ordered htrim id
      (hwatermark s hbefore) update
    rw [halike.txns_eq]
    exact ⟨rfl, (halike.setStore hopen i).setTxns _ _ _⟩

/-- In systems that are alike every action but a sweep answers the same and leaves systems that are
    alike, unless it opens a transaction below the watermark. -/
theorem Alike.act (h : sys.Alike sys') (hr : sys.Reachable) (hr' : sys'.Reachable) (a : Action V)
    (hsweep : a.isSweep = false) (hhonors : sys.honors a = true) :
    Matches (sys.act a) (sys'.act a) := by
  cases a with
  | openTxn i name readTs update => exact matches_openTxn h hr hr' i name readTs update hhonors
  | get name key => exact matches_get h hr hr' name key
  | set name key value => exact matches_set h hr hr' name key value
  | commit name ts => exact matches_commit h hr hr' name ts
  | discard name => exact matches_discard h hr hr' name
  | openScan name lower upper dir =>
    refine Matches.onTxn h name fun i t s s' _ _ _ _ => ⟨rfl, ?_⟩
    rw [h.scans_eq, h.nextScan_eq]
    exact ⟨h.stores_eq, h.sources_eq, h.shared_eq, h.txns_eq, rfl, rfl⟩
  | nextItem n => exact matches_nextItem h hr hr' n
  | closeScan n =>
    refine ⟨rfl, ?_⟩
    show Alike _ { sys' with scans := sys'.scans.unbind n }
    rw [h.scans_eq]
    exact h.setScans _
  | gc i => cases hsweep
  | advanceWatermark i ts =>
    refine Matches.onStore h i fun s s' hs hs' htrim => ⟨rfl, ?_⟩
    exact h.setStore (Store.trimmed_advanceWatermark (hr.sound.stores i s hs).ordered htrim ts) i
  | takeId i =>
    unfold System.act
    dsimp only
    rcases takeId_rel h.sources_eq h.shared_eq i with ⟨hnone, hnone'⟩ | ⟨id, sources, hid, hid'⟩
    · rw [hnone, hnone']
      exact ⟨rfl, h⟩
    · rw [hid, hid']
      exact ⟨rfl, h.setSources sources⟩

/-- A sweep leaves a system like the one before. -/
theorem Alike.sweep (h : sys.Alike sys') (hr : sys.Reachable) {a : Action V}
    (hsweep : a.isSweep = true) : (sys.act a).1.Alike sys' := by
  cases a with
  | gc i =>
    refine Alike.trans ?_ h
    refine onStore_induction (P := fun after => after.Alike sys) i (.refl sys) fun s hs => ?_
    have htrim := Store.trimmed_gc (hr.sound.stores i s hs).valid
    have hset := (alike_setStore hs htrim).symm
    exact ⟨hset.stores_eq, rfl, rfl, rfl, rfl, rfl⟩
  | _ => cases hsweep

/-! ### Runs that differ by sweeps -/

/-- None of the actions opens a transaction below the watermark of that moment. -/
def honorsAll : System V → List (Action V) → Bool
  | _, [] => true
  | sys, a :: actions => sys.honors a && honorsAll (sys.act a).1 actions

/-- The answers of a run, those to sweeps left out. -/
def outcomes : System V → List (Action V) → List (Answer V)
  | _, [] => []
  | sys, a :: actions =>
    if a.isSweep then outcomes (sys.act a).1 actions
    else (sys.act a).2 :: outcomes (sys.act a).1 actions

theorem filter_cons_of_sweep {a : Action V} (h : a.isSweep = true) (actions : List (Action V)) :
    (a :: actions).filter (!·.isSweep) = actions.filter (!·.isSweep) := by
  simp [h]

theorem filter_cons_of_other {a : Action V} (h : a.isSweep = false) (actions : List (Action V)) :
    (a :: actions).filter (!·.isSweep) = a :: actions.filter (!·.isSweep) := by
  simp [h]

/-- Without the sweeps the watermark is honored as it is with them. -/
theorem Alike.honorsAll_filter (h : sys.Alike sys') (hr : sys.Reachable) (hr' : sys'.Reachable)
    {actions : List (Action V)} (hhonors : sys.honorsAll actions = true) :
    sys'.honorsAll (actions.filter (!·.isSweep)) = true := by
  induction actions generalizing sys sys' with
  | nil => rfl
  | cons a actions ih =>
    obtain ⟨ha, hrest⟩ := Bool.and_eq_true_iff.1 hhonors
    cases hsweep : a.isSweep with
    | true =>
      rw [filter_cons_of_sweep hsweep]
      exact ih (h.sweep hr hsweep) (hr.act a) hr' hrest
    | false =>
      rw [filter_cons_of_other hsweep]
      have hact := h.act hr hr' a hsweep ha
      exact Bool.and_eq_true_iff.2
        ⟨(h.honors_eq a).trans ha, ih hact.alike (hr.act a) (hr'.act a) hrest⟩

/-- Without the sweeps the answers are what they are with them. -/
theorem Alike.outcomes_filter (h : sys.Alike sys') (hr : sys.Reachable) (hr' : sys'.Reachable)
    {actions : List (Action V)} (hhonors : sys'.honorsAll (actions.filter (!·.isSweep)) = true) :
    sys'.outcomes (actions.filter (!·.isSweep)) = sys.outcomes actions := by
  induction actions generalizing sys sys' with
  | nil => rfl
  | cons a actions ih =>
    cases hsweep : a.isSweep with
    | true =>
      rw [filter_cons_of_sweep hsweep] at hhonors ⊢
      have hrest := ih (h.sweep hr hsweep) (hr.act a) hr' hhonors
      simpa [outcomes, hsweep] using hrest
    | false =>
      rw [filter_cons_of_other hsweep] at hhonors ⊢
      obtain ⟨ha, hrest⟩ := Bool.and_eq_true_iff.1 hhonors
      have hact := h.act hr hr' a hsweep ((h.honors_eq a).symm.trans ha)
      have htail := ih hact.alike (hr.act a) (hr'.act a) hrest
      simp [outcomes, hsweep, hact.answer_eq, htail]

theorem alike_start {configs configs' : List Config} (hlen : configs'.length = configs.length)
    (shared : Bool) : (start configs shared : System V).Alike (start configs' shared) := by
  have hempty : (Store.trimmed ∘ Store.empty : Config → Store V) =
      fun _ => (Store.empty .standard).trimmed := rfl
  refine ⟨?_, ?_, rfl, rfl, rfl, rfl⟩
  · simp [start, hempty, List.map_const', hlen]
  · simp [start, List.map_const', hlen]

/-- Trimming goes unnoticed. Take two runs on as many stores with any configurations, in which the
    same actions are done in the same order, and any sweeps besides. If no transaction is opened below the
    watermark of its store at that moment, then all actions but the sweeps are answered alike. -/
theorem outcomes_eq_of_sweeps {configs configs' : List Config}
    (hlen : configs'.length = configs.length) (shared : Bool) {actions actions' : List (Action V)}
    (hsame : actions'.filter (!·.isSweep) = actions.filter (!·.isSweep))
    (hhonors : (start configs shared : System V).honorsAll actions = true) :
    (start configs' shared : System V).outcomes actions' =
      (start configs shared : System V).outcomes actions := by
  have hr : ∀ cs : List Config, (start cs shared : System V).Reachable := fun cs =>
    ⟨cs, shared, [], rfl⟩
  have hplain := (Alike.refl _).honorsAll_filter (hr configs) (hr configs) hhonors
  have hfirst := (Alike.refl _).outcomes_filter (hr configs) (hr configs) hplain
  have hsecond := (alike_start hlen shared).symm.outcomes_filter (hr configs') (hr configs)
    (hsame ▸ hplain)
  rw [← hfirst, ← hsecond, hsame]

/-- One store trims what is written and is swept besides, the other is never trimmed at all. -/
theorem outcomes_eq_amid_sweeps :
    (start [⟨true, 0⟩] false : System Nat).outcomes
        [.openTxn 0 "w" 1 true, .set "w" [7] 5, .commit "w" 2, .openTxn 0 "w" 3 true,
          .set "w" [7] 6, .gc 0, .commit "w" 4, .advanceWatermark 0 6, .gc 0,
          .openTxn 0 "r" 6 false, .get "r" [7]] =
      (start [.standard] false : System Nat).outcomes
        [.openTxn 0 "w" 1 true, .set "w" [7] 5, .commit "w" 2, .openTxn 0 "w" 3 true,
          .set "w" [7] 6, .commit "w" 4, .advanceWatermark 0 6, .openTxn 0 "r" 6 false,
          .get "r" [7]] := by
  refine outcomes_eq_of_sweeps ?_ false ?_ ?_
  · rfl
  · rfl
  · decide +kernel

end System

end RadixStore
