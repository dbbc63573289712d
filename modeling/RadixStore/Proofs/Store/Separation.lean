import Mathlib
import RadixStore.Proofs.Store.Collection
import RadixStore.Proofs.Store.Ledger
import RadixStore.Proofs.Store.Sweeps

/-!
# Keys do not interfere

What becomes of a key does not depend on the others. With one key in view a store is a chain with a
registry, a watermark and a configuration, and a transaction is what it has pending for the key. Reads
and writes of other keys leave that as it is. Every other action, but for scans, is answered and changes
it according to what is in view. So whether or not other keys are read and written besides, the answers
are the same.
-/

namespace RadixStore

variable {V : Type}

/-! ### One key in view -/

/-- The transaction with no more than its pending write of `key`. -/
def Txn.only (key : Key) (t : Txn V) : Txn V :=
  { t with writes := t.writes.filter fun w => w.1 = key }

/-- What is to be seen of a store with one key in view. -/
@[ext] structure Store.View (V : Type) where
  chain : Chain V
  active : Registry
  watermark : Timestamp
  config : Config

/-- The store with `key` in view. -/
def Store.view (key : Key) (s : Store V) : Store.View V :=
  ⟨s.chain key, s.active, s.watermark, s.config⟩

/-- Whether the action reads or writes another key than `key`. -/
def Action.isElsewhere (key : Key) : Action V → Bool
  | .get _ other | .set _ other _ => other ≠ key
  | _ => false

/-- What an answer says of the matter at hand: not how many writes are pending altogether, and of a
    sweep only against which safepoint it trims. -/
def Answer.outcome : Answer V → Answer V
  | .wrote v _ => .wrote v 0
  | .swept report => .swept ⟨0, 0, 0, report.safepoint⟩
  | answer => answer

namespace Txn

variable {t t' : Txn V} {key other : Key} {p : Pending V}

@[simp] theorem pending?_only (key : Key) (t : Txn V) : (t.only key).pending? key = t.pending? key := by
  simp [only, pending?, List.find?_filter]

@[simp] theorem only_stage_self (t : Txn V) (key : Key) (p : Pending V) :
    (t.stage key p).only key = { t with writes := [(key, p)] } := by
  simp [only, stage]

theorem only_stage_of_ne (t : Txn V) (p : Pending V) (h : other ≠ key) :
    (t.stage other p).only key = t.only key := by
  have hfilter : ∀ w : Key × Pending V, (decide (w.1 = key) && decide (w.1 ≠ other)) =
      decide (w.1 = key) := by
    intro w
    by_cases hw : w.1 = key
    · simp [hw, Ne.symm h]
    · simp [hw]
  simp only [only, stage, List.filter_cons, decide_eq_true_eq, if_neg h, List.filter_filter, hfilter]

/-- What transactions that are the same with `key` in view have in common. -/
theorem of_only_eq (h : t'.only key = t.only key) : t'.id = t.id ∧ t'.readTs = t.readTs ∧
    t'.update = t.update ∧ t'.pending? key = t.pending? key := by
  obtain ⟨hid, hreadTs, hupdate, -⟩ := Txn.mk.inj h
  have hpending := congrArg (pending? · key) h
  exact ⟨hid, hreadTs, hupdate, by simpa using hpending⟩

/-- What a write makes of the chain of its key, and where the new version stands. -/
def writeTo (t : Txn V) (key : Key) (value : V) (c : Chain V) : Except Refusal (Chain V × Installed) :=
  if t.update then
    match t.pending? key with
    | some p => (c.supersede p.installed value).elim (.error .contended) .ok
    | none => c.install t.id t.readTs value
  else .error .readOnly

theorem writeTo_congr (h : t'.only key = t.only key) (value : V) (c : Chain V) :
    t'.writeTo key value c = t.writeTo key value c := by
  obtain ⟨hid, hreadTs, hupdate, hpending⟩ := of_only_eq h
  rw [writeTo, hid, hreadTs, hupdate, hpending, writeTo]

end Txn

/-! ### Operations with a key in view -/

namespace Store

variable {s s' : Store V} {t t' : Txn V} {key other : Key}

theorem view_of_rechained (h : s.Rechained s') (hchain : s'.chain key = s.chain key) :
    s'.view key = s.view key := by
  rw [view, hchain, h.active_eq, h.watermark_eq, h.config_eq, view]

theorem verdict_set (hs : s.index.Valid) (t : Txn V) (key : Key) (value : V) :
    (s.set t key value).verdict = (t.writeTo key value (s.chain key)).map fun _ => () := by
  unfold Store.set Txn.writeTo
  split
  · cases hp : t.pending? key with
    | some p =>
      dsimp only
      unfold setAgain
      cases hc : s.chain? key with
      | none =>
        have hempty : s.chain key = .empty := by simp [chain, hc]
        rw [hempty]
        rfl
      | some c =>
        rw [chain_eq_of_chain? hc, Option.bind_some]
        cases c.supersede p.installed value <;> rfl
    | none =>
      obtain ⟨hvalue, -⟩ := chain_getOrInsert hs key
      dsimp only
      unfold setFirst
      dsimp only
      rw [hvalue]
      cases (s.chain key).install t.id t.readTs value <;> rfl
  · rfl

/-- A write depends on the chain of its key, and changes that one alone. -/
theorem set_eq (hs : s.index.Valid) (t : Txn V) (key : Key) (value : V) :
    match t.writeTo key value (s.chain key) with
    | .error e => (s.set t key value).verdict = .error e ∧ (s.set t key value).txn = t ∧
        (s.set t key value).store.chain = s.chain
    | .ok (c, i) => (s.set t key value).verdict = .ok () ∧
        (s.set t key value).txn = t.stage key ⟨i, value⟩ ∧
        (s.set t key value).store.chain = Function.update s.chain key c := by
  have hverdict := verdict_set hs t key value
  have hmay : (s.set t key value).verdict = .ok () → t.update = true := by
    intro hok
    by_contra hnot
    rw [hok, Txn.writeTo, if_neg hnot] at hverdict
    cases hverdict
  obtain ⟨-, ⟨e, herror, hsame⟩ | ⟨c, i, hok, hp, hinst, hdone⟩ | ⟨p, c, i, hok, hp, hsup, hdone⟩⟩ :=
    set_cases hs t key value
  · rw [herror] at hverdict
    cases hwrite : t.writeTo key value (s.chain key) with
    | error e' =>
      rw [hwrite] at hverdict
      cases hverdict
      exact ⟨herror, hsame⟩
    | ok r =>
      rw [hwrite] at hverdict
      cases hverdict
  · have hwrite : t.writeTo key value (s.chain key) = .ok (c, i) := by
      simp [Txn.writeTo, hmay hok, hp, hinst]
    rw [hwrite]
    exact ⟨hok, hdone⟩
  · have hwrite : t.writeTo key value (s.chain key) = .ok (c, i) := by
      simp [Txn.writeTo, hmay hok, hp, hsup]
    rw [hwrite]
    exact ⟨hok, hdone⟩

/-! ### Another key is read or written -/

theorem view_get_of_ne (hs : s.index.Valid) (t : Txn V) (h : other ≠ key) :
    (s.get t other).2.view key = s.view key := by
  refine view_of_rechained (rechained_get s t other) ?_
  cases hp : t.pending? other with
  | some p => rw [get_of_pending hp]
  | none => rw [(get_of_free hs hp).2, Function.update_of_ne (Ne.symm h)]

theorem view_set_of_ne (hs : s.index.Valid) (t : Txn V) (value : V) (h : other ≠ key) :
    (s.set t other value).store.view key = s.view key ∧
      (s.set t other value).txn.only key = t.only key := by
  obtain ⟨hrechained, -⟩ := set_cases hs t other value
  have hset := set_eq hs t other value
  cases hwrite : t.writeTo other value (s.chain other) with
  | error e =>
    rw [hwrite] at hset
    obtain ⟨-, htxn, hchain⟩ := hset
    exact ⟨view_of_rechained hrechained (by rw [hchain]), by rw [htxn]⟩
  | ok r =>
    rw [hwrite] at hset
    obtain ⟨-, htxn, hchain⟩ := hset
    refine ⟨view_of_rechained hrechained ?_, ?_⟩
    · rw [hchain, Function.update_of_ne (Ne.symm h)]
    · rw [htxn, Txn.only_stage_of_ne t _ h]

/-! ### The same is done to stores that are the same in view -/

section Same

variable {r r' : Store V} (h : s'.view key = s.view key)

include h

theorem safepoint_of_view : s'.safepoint = s.safepoint := by
  obtain ⟨-, hactive, hwatermark, -⟩ := View.mk.inj h
  rw [safepoint, hactive, hwatermark, safepoint]

/-- If only chains change, it depends on the one in view whether the stores stay the same. -/
theorem view_rechained (hr : s.Rechained r) (hr' : s'.Rechained r')
    (hchain : r'.chain key = r.chain key) : r'.view key = r.view key := by
  obtain ⟨-, hactive, hwatermark, hconfig⟩ := View.mk.inj h
  refine View.ext hchain ?_ ?_ ?_
  · exact hr'.active_eq.trans (hactive.trans hr.active_eq.symm)
  · exact hr'.watermark_eq.trans (hwatermark.trans hr.watermark_eq.symm)
  · exact hr'.config_eq.trans (hconfig.trans hr.config_eq.symm)

theorem view_openTxn (id : TxnId) (readTs : Timestamp) (update : Bool) :
    (s'.openTxn id readTs update).1.view key = (s.openTxn id readTs update).1.view key := by
  obtain ⟨hchain, hactive, hwatermark, hconfig⟩ := View.mk.inj h
  exact View.ext hchain (congrArg (Registry.enter · readTs) hactive) hwatermark hconfig

theorem view_advanceWatermark (ts : Timestamp) :
    (s'.advanceWatermark ts).view key = (s.advanceWatermark ts).view key := by
  obtain ⟨hchain, hactive, hwatermark, hconfig⟩ := View.mk.inj h
  exact View.ext hchain hactive (congrArg (max · ts) hwatermark) hconfig

theorem view_gc (hs : s.index.Valid) (hs' : s'.index.Valid) (hp : s.places.Orderly)
    (hp' : s'.places.Orderly) :
    s'.gc.1.view key = s.gc.1.view key ∧ s'.gc.2.safepoint = s.gc.2.safepoint := by
  obtain ⟨hchain, hactive, hwatermark, hconfig⟩ := View.mk.inj h
  have hsafe := safepoint_of_view h
  have hgc := sweeps_gc hs hp
  have hgc' := sweeps_gc hs' hp'
  refine ⟨View.ext ?_ ?_ ?_ ?_, by rw [hgc.safepoint, hgc'.safepoint, hsafe]⟩
  · show s'.gc.1.chain key = s.gc.1.chain key
    rw [chain_gc hs hp, chain_gc hs' hp', hchain, hsafe, hconfig]
  · exact hgc'.active.trans (hactive.trans hgc.active.symm)
  · exact hgc'.watermark.trans (hwatermark.trans hgc.watermark.symm)
  · exact hgc'.config.trans (hconfig.trans hgc.config.symm)

variable (hs : s.index.Valid) (hs' : s'.index.Valid) (ht : t'.only key = t.only key)

include hs hs' ht

theorem view_get : (s'.get t' key).1 = (s.get t key).1 ∧
    (s'.get t' key).2.view key = (s.get t key).2.view key := by
  obtain ⟨hid, hreadTs, -, hpending⟩ := Txn.of_only_eq ht
  have hchain : s'.chain key = s.chain key := congrArg View.chain h
  cases hp : t.pending? key with
  | some p =>
    rw [get_of_pending hp, get_of_pending (hpending.trans hp)]
    exact ⟨rfl, h⟩
  | none =>
    obtain ⟨hanswer, hafter⟩ := get_of_free hs hp
    obtain ⟨hanswer', hafter'⟩ := get_of_free hs' (hpending.trans hp)
    refine ⟨by rw [hanswer, hanswer', hchain, hreadTs, hid], ?_⟩
    refine view_rechained h (rechained_get s t key) (rechained_get s' t' key) ?_
    rw [hafter, hafter', Function.update_self, Function.update_self, hchain, hreadTs, hid]

theorem view_set (value : V) :
    (s'.set t' key value).verdict = (s.set t key value).verdict ∧
      (s'.set t' key value).txn.only key = (s.set t key value).txn.only key ∧
      (s'.set t' key value).store.view key = (s.set t key value).store.view key := by
  obtain ⟨hid, hreadTs, hupdate, -⟩ := Txn.of_only_eq ht
  have hchain : s'.chain key = s.chain key := congrArg View.chain h
  obtain ⟨hrechained, -⟩ := set_cases hs t key value
  obtain ⟨hrechained', -⟩ := set_cases hs' t' key value
  have hset := set_eq hs t key value
  have hset' := set_eq hs' t' key value
  rw [hchain, Txn.writeTo_congr ht] at hset'
  cases hwrite : t.writeTo key value (s.chain key) with
  | error e =>
    rw [hwrite] at hset hset'
    obtain ⟨hverdict, htxn, hafter⟩ := hset
    obtain ⟨hverdict', htxn', hafter'⟩ := hset'
    refine ⟨hverdict'.trans hverdict.symm, by rw [htxn, htxn', ht], ?_⟩
    exact view_rechained h hrechained hrechained' (by rw [hafter, hafter', hchain])
  | ok r =>
    rw [hwrite] at hset hset'
    obtain ⟨hverdict, htxn, hafter⟩ := hset
    obtain ⟨hverdict', htxn', hafter'⟩ := hset'
    refine ⟨hverdict'.trans hverdict.symm, ?_, ?_⟩
    · rw [htxn, htxn', Txn.only_stage_self, Txn.only_stage_self, hid, hreadTs, hupdate]
    · refine view_rechained h hrechained hrechained' ?_
      rw [hafter, hafter', Function.update_self, Function.update_self]

variable (hw : (t.writes.map Prod.fst).Nodup) (hw' : (t'.writes.map Prod.fst).Nodup)

include hw hw'

theorem view_discard : (s'.discard t').view key = (s.discard t).view key := by
  obtain ⟨-, hreadTs, -, hpending⟩ := Txn.of_only_eq ht
  have hchain : s'.chain key = s.chain key := congrArg View.chain h
  obtain ⟨hrechained, hafter⟩ := withdraw_spec hs hw
  obtain ⟨hrechained', hafter'⟩ := withdraw_spec hs' hw'
  have hwithdraw := view_rechained h hrechained hrechained' (by rw [hafter, hafter', hpending, hchain])
  obtain ⟨hchain, hactive, hwatermark, hconfig⟩ := View.mk.inj hwithdraw
  rw [discard_eq, discard_eq]
  exact View.ext hchain (congrArg₂ Registry.leave hactive hreadTs) hwatermark hconfig

theorem view_commit (ts : Timestamp) :
    (s'.commit t' ts).verdict = (s.commit t ts).verdict ∧
      (s'.commit t' ts).store.view key = (s.commit t ts).store.view key := by
  obtain ⟨-, hreadTs, -, hpending⟩ := Txn.of_only_eq ht
  by_cases hts : ts < t.readTs
  · rw [commit_of_lt hts, commit_of_lt (hreadTs ▸ hts)]
    exact ⟨rfl, view_discard h hs hs' ht hw hw'⟩
  · obtain ⟨hok, hleft, hkept, hset, hafter⟩ := commit_spec hs hw (not_lt.1 hts)
    obtain ⟨hok', hleft', hkept', hset', hafter'⟩ :=
      commit_spec hs' hw' (hreadTs ▸ not_lt.1 hts)
    obtain ⟨hchain, hactive, hwatermark, hconfig⟩ := View.mk.inj h
    rw [hactive, hreadTs, ← hleft] at hleft'
    rw [hwatermark, ← hkept] at hkept'
    have hsafe : (s'.commit t' ts).store.safepoint = (s.commit t ts).store.safepoint := by
      rw [safepoint, hleft', hkept', safepoint]
    refine ⟨hok'.trans hok.symm, View.ext ?_ hleft' hkept' (hset'.trans (hconfig.trans hset.symm))⟩
    show (s'.commit t' ts).store.chain key = (s.commit t ts).store.chain key
    rw [hafter, hafter', hpending, hchain, hconfig, hsafe]

end Same

end Store

/-! ### Systems with a key in view -/

/-- The open transaction with no more than its pending write of `key`. -/
def OpenTxn.only (key : Key) (o : OpenTxn V) : OpenTxn V :=
  ⟨o.store, o.txn.only key⟩

namespace System

/-- With `key` in view the systems are the same. -/
structure SameAt (key : Key) (sys sys' : System V) : Prop where
  stores_eq : sys'.stores.map (Store.view key) = sys.stores.map (Store.view key)
  txns_eq : ∀ name, (sys'.txns.find name).map (OpenTxn.only key) =
    (sys.txns.find name).map (OpenTxn.only key)
  sources_eq : sys'.sources = sys.sources
  shared_eq : sys'.shared = sys.shared

/-- The outcome was the same, and with `key` in view the systems afterwards are. -/
structure MatchesAt (key : Key) (r r' : System V × Answer V) : Prop where
  outcome_eq : r'.2.outcome = r.2.outcome
  same : SameAt key r.1 r'.1

variable {key : Key} {sys sys' sys'' : System V} {i : Nat} {s s' : Store V} {name : String}
  {o o' : OpenTxn V} {t : Txn V} {a : Action V}

theorem SameAt.refl (key : Key) (sys : System V) : SameAt key sys sys :=
  ⟨rfl, fun _ => rfl, rfl, rfl⟩

theorem SameAt.trans (h : SameAt key sys sys') (h' : SameAt key sys' sys'') : SameAt key sys sys'' :=
  ⟨h'.stores_eq.trans h.stores_eq, fun name => (h'.txns_eq name).trans (h.txns_eq name),
    h'.sources_eq.trans h.sources_eq, h'.shared_eq.trans h.shared_eq⟩

theorem SameAt.symm (h : SameAt key sys sys') : SameAt key sys' sys :=
  ⟨h.stores_eq.symm, fun name => (h.txns_eq name).symm, h.sources_eq.symm, h.shared_eq.symm⟩

theorem SameAt.setStore (h : SameAt key sys sys') (hs : s'.view key = s.view key) (i : Nat) :
    SameAt key (sys.setStore i s) (sys'.setStore i s') := by
  refine ⟨?_, h.txns_eq, h.sources_eq, h.shared_eq⟩
  show (sys'.stores.set i s').map _ = (sys.stores.set i s).map _
  rw [List.map_set, List.map_set, h.stores_eq, hs]

theorem SameAt.setSources (h : SameAt key sys sys') (sources : List IdSource) :
    SameAt key { sys with sources := sources } { sys' with sources := sources } :=
  ⟨h.stores_eq, h.txns_eq, rfl, h.shared_eq⟩

theorem SameAt.unbind (h : SameAt key sys sys') (name : String) (reclaimed reclaimed' : Nat) :
    SameAt key { sys with txns := sys.txns.unbind name, reclaimed := reclaimed }
      { sys' with txns := sys'.txns.unbind name, reclaimed := reclaimed' } := by
  refine ⟨h.stores_eq, fun other => ?_, h.sources_eq, h.shared_eq⟩
  show ((sys'.txns.unbind name).find other).map _ = ((sys.txns.unbind name).find other).map _
  rw [Bindings.find_unbind, Bindings.find_unbind]
  split
  · rfl
  · exact h.txns_eq other

theorem SameAt.bind (h : SameAt key sys sys') (name : String) (ho : o'.only key = o.only key) :
    SameAt key { sys with txns := sys.txns.bind name o }
      { sys' with txns := sys'.txns.bind name o' } := by
  refine ⟨h.stores_eq, fun other => ?_, h.sources_eq, h.shared_eq⟩
  show ((sys'.txns.bind name o').find other).map _ = ((sys.txns.bind name o).find other).map _
  rw [Bindings.find_bind, Bindings.find_bind]
  split
  · exact congrArg some ho
  · exact h.txns_eq other

/-! ### Actions elsewhere -/

/-- Whoever reads or writes another key leaves everything as it is. -/
theorem Sound.same_of_elsewhere (h : sys.Sound) (ha : a.isElsewhere key = true) :
    SameAt key sys (sys.act a).1 := by
  cases a with
  | get name other =>
    have hne : other ≠ key := by simpa [Action.isElsewhere] using ha
    refine onTxn_induction name (.refl key sys) fun i t s _ hs => ?_
    have hview := Store.view_get_of_ne (h.stores i s hs).valid t hne
    exact ⟨map_stores_setStore hs hview, fun _ => rfl, rfl, rfl⟩
  | set name other value =>
    have hne : other ≠ key := by simpa [Action.isElsewhere] using ha
    refine onTxn_induction name (.refl key sys) fun i t s hfind hs => ?_
    obtain ⟨hview, honly⟩ := Store.view_set_of_ne (h.stores i s hs).valid t value hne
    refine ⟨map_stores_setStore hs hview, fun other => ?_, rfl, rfl⟩
    show ((sys.txns.bind name _).find other).map _ = _
    rw [Bindings.find_bind]
    split
    · rename_i hother
      rw [hother, hfind]
      exact congrArg (fun t => some (OpenTxn.mk i t)) honly
    · rfl
  | _ => cases ha

/-! ### Other actions -/

theorem MatchesAt.onStore (h : SameAt key sys sys') (i : Nat) {f f' : Store V → System V × Answer V}
    (hf : ∀ s s', sys.stores[i]? = some s → sys'.stores[i]? = some s' → s'.view key = s.view key →
      MatchesAt key (f s) (f' s')) : MatchesAt key (sys.onStore i f) (sys'.onStore i f') :=
  onStore_rel h.stores_eq i ⟨rfl, h⟩ hf

theorem MatchesAt.onTxn (h : SameAt key sys sys') (name : String)
    {f f' : OpenTxn V → Store V → System V × Answer V}
    (hf : ∀ i t t' s s', sys.txns.find name = some ⟨i, t⟩ → sys'.txns.find name = some ⟨i, t'⟩ →
      sys.stores[i]? = some s → sys'.stores[i]? = some s' → t'.only key = t.only key →
      s'.view key = s.view key → MatchesAt key (f ⟨i, t⟩ s) (f' ⟨i, t'⟩ s')) :
    MatchesAt key (sys.onTxn name f) (sys'.onTxn name f') := by
  have htxn := h.txns_eq name
  unfold System.onTxn
  cases hfind : sys.txns.find name with
  | none =>
    rw [hfind] at htxn
    rw [Option.map_eq_none_iff.1 htxn]
    exact ⟨rfl, h⟩
  | some o =>
    rw [hfind] at htxn
    obtain ⟨⟨i, t'⟩, hfind', honly⟩ := Option.map_eq_some_iff.1 htxn
    obtain ⟨rfl, honly⟩ := OpenTxn.mk.inj honly
    rw [hfind']
    exact MatchesAt.onStore h o.store fun s s' hs hs' hview =>
      hf o.store o.txn t' s s' hfind hfind' hs hs' honly hview

section Acting

variable (h : SameAt key sys sys') (hsound : sys.Sound) (hsound' : sys'.Sound)

include h hsound hsound'

theorem matchesAt_discard (name : String) :
    MatchesAt key (sys.discard name) (sys'.discard name) := by
  refine MatchesAt.onTxn h name fun i t t' s s' hfind hfind' hs hs' honly hview => ⟨rfl, ?_⟩
  have hstore := Store.view_discard hview (hsound.stores i s hs).valid (hsound'.stores i s' hs').valid
    honly (hsound.nodup_writes hfind hs) (hsound'.nodup_writes hfind' hs')
  exact (h.setStore hstore i).unbind name _ _

theorem matchesAt_get (name : String) :
    MatchesAt key (sys.act (.get name key)) (sys'.act (.get name key)) := by
  refine MatchesAt.onTxn h name fun i t t' s s' _ _ hs hs' honly hview => ?_
  obtain ⟨hvalue, hstore⟩ := Store.view_get hview (hsound.stores i s hs).valid
    (hsound'.stores i s' hs').valid honly
  exact ⟨congrArg Answer.value hvalue, h.setStore hstore i⟩

theorem matchesAt_set (name : String) (value : V) :
    MatchesAt key (sys.act (.set name key value)) (sys'.act (.set name key value)) := by
  refine MatchesAt.onTxn h name fun i t t' s s' _ _ hs hs' honly hview => ?_
  obtain ⟨hverdict, htxn, hstore⟩ := Store.view_set hview (hsound.stores i s hs).valid
    (hsound'.stores i s' hs').valid honly value
  refine ⟨congrArg (Answer.wrote · 0) hverdict, ?_⟩
  exact (h.setStore hstore i).bind name (congrArg (OpenTxn.mk i) htxn)

theorem matchesAt_commit (name : String) (ts : Timestamp) :
    MatchesAt key (sys.act (.commit name ts)) (sys'.act (.commit name ts)) := by
  refine MatchesAt.onTxn h name fun i t t' s s' hfind hfind' hs hs' honly hview => ?_
  obtain ⟨hverdict, hstore⟩ := Store.view_commit hview (hsound.stores i s hs).valid
    (hsound'.stores i s' hs').valid honly (hsound.nodup_writes hfind hs)
    (hsound'.nodup_writes hfind' hs') ts
  exact ⟨congrArg Answer.verdict hverdict, (h.setStore hstore i).unbind name _ _⟩

end Acting

theorem matchesAt_openTxn (h : SameAt key sys sys') (hsound : sys.Sound) (hsound' : sys'.Sound)
    (i : Nat) (name : String) (readTs : Timestamp) (update : Bool) :
    MatchesAt key (sys.openTxn i name readTs update) (sys'.openTxn i name readTs update) := by
  have hdiscard := (matchesAt_discard h hsound hsound' name).same
  unfold System.openTxn
  dsimp only
  rcases takeId_rel hdiscard.sources_eq hdiscard.shared_eq i with ⟨hnone, hnone'⟩ |
    ⟨id, sources, hid, hid'⟩
  · rw [hnone, hnone']
    exact ⟨rfl, hdiscard⟩
  · have hsame := hdiscard.setSources sources
    rw [hid, hid']
    refine MatchesAt.onStore hsame i fun s s' _ _ hview => ⟨rfl, ?_⟩
    exact (hsame.setStore (Store.view_openTxn hview id readTs update) i).bind name rfl

/-- With a key in view, every action but for scans and for reads and writes of other keys has the same
    outcome in systems that are the same, and leaves them the same. -/
theorem SameAt.act (h : SameAt key sys sys') (hr : sys.Reachable) (hr' : sys'.Reachable)
    (ha : a.isElsewhere key = false) (hscan : ∀ n, a ≠ .nextItem n) :
    MatchesAt key (sys.act a) (sys'.act a) := by
  cases a with
  | openTxn i name readTs update =>
    exact matchesAt_openTxn h hr.sound hr'.sound i name readTs update
  | get name other =>
    obtain rfl : other = key := by simpa [Action.isElsewhere] using ha
    exact matchesAt_get h hr.sound hr'.sound name
  | set name other value =>
    obtain rfl : other = key := by simpa [Action.isElsewhere] using ha
    exact matchesAt_set h hr.sound hr'.sound name value
  | commit name ts => exact matchesAt_commit h hr.sound hr'.sound name ts
  | discard name => exact matchesAt_discard h hr.sound hr'.sound name
  | openScan name lower upper dir =>
    exact MatchesAt.onTxn h name fun i t t' s s' _ _ _ _ _ _ =>
      ⟨rfl, ⟨h.stores_eq, h.txns_eq, h.sources_eq, h.shared_eq⟩⟩
  | nextItem n => exact absurd rfl (hscan n)
  | closeScan n => exact ⟨rfl, ⟨h.stores_eq, h.txns_eq, h.sources_eq, h.shared_eq⟩⟩
  | gc i =>
    refine MatchesAt.onStore h i fun s s' hs hs' hview => ?_
    obtain ⟨hstore, hsafe⟩ := Store.view_gc hview (hr.sound.stores i s hs).valid
      (hr'.sound.stores i s' hs').valid (hr.orderly hs) (hr'.orderly hs')
    have hset := h.setStore hstore i
    refine ⟨?_, ⟨hset.stores_eq, hset.txns_eq, hset.sources_eq, hset.shared_eq⟩⟩
    show (Answer.swept ⟨0, 0, 0, s'.gc.2.safepoint⟩ : Answer V) = .swept ⟨0, 0, 0, s.gc.2.safepoint⟩
    rw [hsafe]
  | advanceWatermark i ts =>
    exact MatchesAt.onStore h i fun s s' _ _ hview =>
      ⟨rfl, h.setStore (Store.view_advanceWatermark hview ts) i⟩
  | takeId i =>
    unfold System.act
    dsimp only
    rcases takeId_rel h.sources_eq h.shared_eq i with ⟨hnone, hnone'⟩ | ⟨id, sources, hid, hid'⟩
    · rw [hnone, hnone']
      exact ⟨rfl, h⟩
    · rw [hid, hid']
      exact ⟨rfl, h.setSources sources⟩

/-! ### Runs with and without actions elsewhere -/

/-- The actions of a run with their outcomes, without those that read or write other keys than
    `key`. -/
def outcomesAt (key : Key) (sys : System V) (run : List (Action V)) : List (Action V × Answer V) :=
  ((run.zip (sys.answers run)).filter fun e => !e.1.isElsewhere key).map fun e => (e.1, e.2.outcome)

theorem outcomesAt_cons_of_elsewhere (sys : System V) (run : List (Action V))
    (ha : a.isElsewhere key = true) :
    sys.outcomesAt key (a :: run) = (sys.act a).1.outcomesAt key run := by
  simp [outcomesAt, answers, ha]

theorem outcomesAt_cons_of_here (sys : System V) (run : List (Action V))
    (ha : a.isElsewhere key = false) : sys.outcomesAt key (a :: run) =
      (a, (sys.act a).2.outcome) :: (sys.act a).1.outcomesAt key run := by
  simp [outcomesAt, answers, ha]

theorem SameAt.outcomesAt_filter (h : SameAt key sys sys') (hr : sys.Reachable)
    (hr' : sys'.Reachable) {run : List (Action V)} (hscans : ∀ n, .nextItem n ∉ run) :
    sys'.outcomesAt key (run.filter (!·.isElsewhere key)) = sys.outcomesAt key run := by
  induction run generalizing sys sys' with
  | nil => rfl
  | cons a run ih =>
    have hrest : ∀ n, .nextItem n ∉ run := fun n hn => hscans n (List.mem_cons_of_mem a hn)
    cases ha : a.isElsewhere key with
    | true =>
      have hsame := (hr.sound.same_of_elsewhere ha).symm.trans h
      rw [outcomesAt_cons_of_elsewhere sys run ha, ← ih hsame (hr.act a) hr' hrest]
      simp [ha]
    | false =>
      have hact := h.act hr hr' ha fun n hn => hscans n (hn ▸ List.mem_cons_self)
      have hfilter : (a :: run).filter (!·.isElsewhere key) =
          a :: run.filter (!·.isElsewhere key) := by simp [ha]
      rw [hfilter, outcomesAt_cons_of_here _ _ ha, outcomesAt_cons_of_here _ _ ha, hact.outcome_eq,
        ih hact.same (hr.act a) (hr'.act a) hrest]

/-- Keys do not interfere. If all reads and writes of other keys than `key` are left out of a run
    without scans, then everything else has the same outcome: the reads and writes of `key`, and every
    commit. -/
theorem outcomesAt_without_elsewhere (configs : List Config) (shared : Bool) (key : Key)
    {run : List (Action V)} (hscans : ∀ n, .nextItem n ∉ run) :
    (start configs shared).outcomesAt key (run.filter (!·.isElsewhere key)) =
      (start configs shared).outcomesAt key run :=
  (SameAt.refl key _).outcomesAt_filter ⟨configs, shared, [], rfl⟩ ⟨configs, shared, [], rfl⟩ hscans

/-- Two transactions contend for a key that has others above and below it in the index, or none. -/
theorem outcomesAt_without_neighbours :
    (start [⟨true, 0⟩] false : System Nat).outcomesAt [1, 2]
        [.openTxn 0 "a" 5 true, .openTxn 0 "b" 5 true, .set "b" [1, 2] 8, .set "a" [1, 2] 9,
          .commit "a" 6, .commit "b" 7, .openTxn 0 "c" 9 true, .get "c" [1, 2], .set "c" [1, 2] 10,
          .discard "c", .advanceWatermark 0 9, .gc 0] =
      (start [⟨true, 0⟩] false : System Nat).outcomesAt [1, 2]
        [.openTxn 0 "a" 5 true, .set "a" [1] 6, .openTxn 0 "b" 5 true, .set "b" [1] 7,
          .set "b" [1, 2] 8, .set "a" [1, 2, 3] 7, .set "a" [1, 2] 9, .commit "a" 6, .commit "b" 7,
          .openTxn 0 "c" 9 true, .get "c" [1], .get "c" [1, 2], .set "c" [1, 2] 10, .discard "c",
          .advanceWatermark 0 9, .gc 0] := by
  refine Eq.trans ?_ (outcomesAt_without_elsewhere [⟨true, 0⟩] false [1, 2] ?_)
  · rfl
  · simp

end System

end RadixStore
