import Mathlib
import RadixStore.Proofs.Store.Collection
import RadixStore.Proofs.Store.Ledger
import RadixStore.Proofs.Store.Sweeps

/-!
# No version is lost

Every version that is linked in some chain or that was trimmed is there because a transaction wrote a
key: it is committed, or its transaction is still open. Of all the writes of one key by one transaction
there is one version, and none if the transaction is discarded. So the versions that there are and
those that were trimmed add up to the keys that were written.
-/

namespace RadixStore

variable {V : Type}

/-! ### The versions of a chain -/

namespace Chain

variable {c c' : Chain V} {d : Draft V} {hist : List (Version V)}

/-- A draft is one version more. -/
theorem Shape.length_eq (h : c.Shape (some d) hist) : c.length = hist.length + 1 := by
  have hhold : (hold d.owner hist).length = hist.length := by cases hist <;> rfl
  simp [Chain.length, h.versions_eq, layout, hhold]

theorem length_install {id : TxnId} {readTs : Timestamp} {value : V} {i : Installed}
    (h : c.install id readTs value = .ok (c', i)) : c'.length = c.length + 1 := by
  rw [install_eq] at h
  cases hversions : c.versions with
  | nil =>
    simp only [hversions, Except.ok.injEq, Prod.mk.injEq] at h
    simp [Chain.length, hversions, ← h.1]
  | cons head older =>
    rw [hversions] at h
    dsimp only at h
    split at h
    · cases h
    · split at h
      · simp only [Except.ok.injEq, Prod.mk.injEq] at h
        simp [Chain.length, hversions, ← h.1]
      · cases h

end Chain

/-! ### The pending writes -/

namespace Txn

variable {t : Txn V}

theorem card_written (hw : (t.writes.map Prod.fst).Nodup) :
    (t.writes.map Prod.fst).toFinset.card = t.writes.length := by
  rw [List.toFinset_card_of_nodup hw, List.length_map]

theorem length_stage (hw : (t.writes.map Prod.fst).Nodup) (key : Key) (p : Pending V) :
    (t.stage key p).writes.length = t.writes.length + if (t.pending? key).isSome then 0 else 1 := by
  have hstage : ((t.stage key p).writes.map Prod.fst).Nodup := Bindings.nodup_bind hw p
  rw [← card_written hstage, ← card_written hw, toFinset_stage, Finset.card_insert_eq_ite]
  simp only [List.mem_toFinset, Store.mem_writes_iff]
  split <;> rfl

end Txn

/-! ### The versions of a store -/

namespace Store

variable {s s' : Store V} {t : Txn V} {txns : Multiset (Txn V)} {key : Key} {safepoint : Timestamp}
  {keys : List Key}

/-- The number of versions in all chains. -/
def linked (s : Store V) : Nat :=
  (s.index.leaves.map fun l => l.value.length).sum

theorem support_length_subset (hs : s.index.Valid) :
    (Function.support fun key => (s.chain key).length) ⊆ ↑s.keys.toFinset := by
  intro key hkey
  by_contra hmem
  have hnone : s.chain? key = none := by simpa [mem_keys_iff hs] using hmem
  simp [chain, hnone, Chain.empty, Chain.length] at hkey

/-- It does not matter which keys have a chain that is empty, and which have none. -/
theorem linked_eq_finsum (hs : s.index.Valid) : s.linked = ∑ᶠ key, (s.chain key).length := by
  have hkeys : s.linked = (s.keys.map fun key => (s.chain key).length).sum := by
    unfold linked keys
    rw [List.map_map]
    refine congrArg List.sum (List.map_congr_left fun l hl => ?_)
    have hget : s.chain? l.key = some l.value :=
      hs.get?_eq_some_iff.2 ((Branch.Valid.mem_leaves_iff hs l).1 hl)
    simp [chain_eq_of_chain? hget]
  rw [hkeys, finsum_eq_sum_of_support_subset _ (support_length_subset hs),
    List.sum_toFinset _ (nodup_keys hs)]

/-- If the chains of some keys get longer by `n` versions each, there are so many more in the store. -/
theorem linked_add (hs : s.index.Valid) (hs' : s'.index.Valid) (grown : Finset Key) (n : Nat)
    (h : ∀ key, (s'.chain key).length = (s.chain key).length + if key ∈ grown then n else 0) :
    s'.linked = s.linked + grown.card * n := by
  have hsupport : (Function.support fun key => if key ∈ grown then n else 0) ⊆ ↑grown := by
    intro key hkey
    by_contra hmem
    simp_all
  have hgrown : (∑ᶠ key, if key ∈ grown then n else 0) = grown.card * n := by
    rw [finsum_eq_sum_of_support_subset _ hsupport, Finset.sum_ite_mem, Finset.inter_self,
      Finset.sum_const, smul_eq_mul]
  rw [linked_eq_finsum hs', linked_eq_finsum hs, finsum_congr h, finsum_add_distrib, hgrown]
  · exact s.keys.toFinset.finite_toSet.subset (support_length_subset hs)
  · exact grown.finite_toSet.subset hsupport

theorem linked_congr (hs : s.index.Valid) (hs' : s'.index.Valid)
    (h : ∀ key, (s'.chain key).length = (s.chain key).length) : s'.linked = s.linked := by
  rw [linked_eq_finsum hs', linked_eq_finsum hs, finsum_congr h]

theorem linked_empty (config : Config) : (empty config : Store V).linked = 0 := by
  rw [linked_eq_finsum Tree.valid_empty]
  simp [chain, chain?, empty, Tree.get?_empty, Chain.empty, Chain.length]

/-! ### What the operations do to them -/

theorem length_of_readBy {c c' : Chain V} (h : ReadBy t c c') : c'.length = c.length := by
  have hlength := congrArg List.length (h.map_versions (f := Version.serial) fun _ _ => rfl)
  simpa [Chain.length] using hlength

theorem linked_get (hs : s.index.Valid) (t : Txn V) (key : Key) :
    (s.get t key).2.linked = s.linked :=
  linked_congr hs ((rechained_get s t key).valid hs) fun k => length_of_readBy (readBy_get hs t key k)

theorem linked_scanNext (hs : s.index.Valid) (t : Txn V) (c : Cursor) :
    (s.scanNext t c).store.linked = s.linked := by
  obtain ⟨hrechained, hreads⟩ := scanUpTo_spec t (s.size + 1) hs c
  exact linked_congr hs (hrechained.valid hs) fun k => length_of_readBy (hreads k)

/-- As many versions come to a store by a write as come to the writes that its transaction has
    pending: one by the first write of a key, and none by another or by one that is refused. -/
theorem linked_set (hs : s.Sound (t ::ₘ txns)) (hd : s.Drafted t) (key : Key) (value : V) :
    (s.set t key value).store.linked + t.writes.length =
      s.linked + (s.set t key value).txn.writes.length := by
  have hwrites := hs.writes t (Multiset.mem_cons_self t txns)
  obtain ⟨hrechained, hcases⟩ := set_cases hs.valid t key value
  have hvalid := hrechained.valid hs.valid
  rcases hcases with ⟨e, -, htxn, hchain⟩ | ⟨c, i, -, hp, hok, htxn, hchain⟩ |
    ⟨p, c, i, -, hp, hok, htxn, hchain⟩
  · have hlinked := linked_congr hs.valid hvalid fun k => by rw [hchain]
    rw [htxn, hlinked]
  · have hlinked := linked_add hs.valid hvalid {key} 1 fun k => by
      rw [hchain]
      by_cases hk : k = key
      · subst hk
        simp [Chain.length_install hok]
      · simp [hk]
    rw [htxn, Txn.length_stage hwrites, hp, hlinked, Finset.card_singleton]
    simp
    omega
  · have hlinked := linked_congr hs.valid hvalid fun k => by
      rw [hchain]
      by_cases hk : k = key
      · subst hk
        obtain ⟨d, hist, hshape, hinstalled, -⟩ := hd k p hp
        rw [hinstalled, hshape.supersede] at hok
        obtain ⟨rfl, -⟩ := Prod.mk.inj (Option.some.inj hok)
        rw [Function.update_self, hshape.length_eq, (hshape.redraft _ value).length_eq]
      · rw [Function.update_of_ne hk]
    rw [htxn, Txn.length_stage hwrites, hp, hlinked]
    simp

/-- A transaction that is discarded takes its versions with it. -/
theorem linked_discard (hs : s.Sound (t ::ₘ txns)) (hd : s.Drafted t) :
    (s.discard t).linked + t.writes.length = s.linked := by
  have hwrites := hs.writes t (Multiset.mem_cons_self t txns)
  obtain ⟨hrechained, hchain⟩ := withdraw_spec hs.valid hwrites
  have hlinked := linked_add (hrechained.valid hs.valid) hs.valid (t.writes.map Prod.fst).toFinset 1
    fun key => by
      rw [hchain key]
      simp only [List.mem_toFinset, mem_writes_iff]
      cases hp : t.pending? key with
      | none => simp
      | some p =>
        obtain ⟨d, hist, hshape, hinstalled, -⟩ := hd key p hp
        dsimp only
        rw [hinstalled, hshape.abort, hshape.length_eq]
        rfl
  rw [hlinked, Txn.card_written hwrites, Nat.mul_one]
  rfl

/-- Trimming takes away as many versions as it says. -/
theorem linked_trimChain (hs : s.index.Valid) (key : Key) (safepoint : Timestamp) :
    (s.trimChain key safepoint).1.linked + (s.trimChain key safepoint).2 = s.linked := by
  have hvalid := (trimChain_spec hs key safepoint).1.valid hs
  have hshorter := (Chain.initial_sweptBy s.config.gcMinChainLen safepoint (s.chain key)).length_le
  have hlinked := linked_add hvalid hs {key} (s.trimChain key safepoint).2 fun k => ?_
  · rw [hlinked, Finset.card_singleton, Nat.one_mul]
  · rw [chain_trimChain_eq hs, trimChain_snd]
    by_cases hk : k = key
    · subst hk
      simp only [Function.update_self, Finset.mem_singleton, if_true]
      exact (Nat.add_sub_cancel' hshorter).symm
    · simp [hk]

theorem linked_trimChains (hs : s.index.Valid) (safepoint : Timestamp) (keys : List Key) :
    (s.trimChains safepoint keys).1.linked + (s.trimChains safepoint keys).2 = s.linked := by
  refine (List.foldlRecOn (motive := fun acc : Store V × Nat =>
    acc.1.index.Valid ∧ acc.1.linked + acc.2 = s.linked) keys _ ⟨hs, rfl⟩ ?_).2
  rintro ⟨before, cut⟩ ⟨hvalid, hlinked⟩ key -
  have hfirst := linked_trimChain hvalid key safepoint
  refine ⟨(trimChain_spec hvalid key safepoint).1.valid hvalid, ?_⟩
  dsimp only at hlinked hfirst ⊢
  omega

theorem linked_sweepKeys (hs : s.index.Valid) (g : SweepReport) (keys : List Key) :
    (s.sweepKeys g keys).1.linked + (s.sweepKeys g keys).2.reclaimed = s.linked + g.reclaimed := by
  induction keys generalizing s g with
  | nil => rfl
  | cons key keys ih =>
    have hvalid := (trimChain_spec hs key g.safepoint).1.valid hs
    have hfirst := linked_trimChain hs key g.safepoint
    rw [sweepKeys_cons, ih hvalid, SweepReport.visited]
    dsimp only
    omega

theorem linked_gc (hs : s.index.Valid) : s.gc.1.linked + s.gc.2.reclaimed = s.linked :=
  linked_sweepKeys hs _ _

theorem linked_commit (hs : s.Sound (t ::ₘ txns)) {ts : Timestamp} (hts : t.readTs ≤ ts) :
    (s.commit t ts).store.linked + (s.commit t ts).reclaimed = s.linked := by
  obtain ⟨hrechained, hchain⟩ := publish_spec hs.valid (hs.writes t (Multiset.mem_cons_self t txns)) ts
  have hvalid : ((s.publish ts t.writes).closeTxn t).index.Valid := hrechained.valid hs.valid
  have hpublish : ((s.publish ts t.writes).closeTxn t).linked = s.linked := by
    refine linked_congr hs.valid hvalid fun key => ?_
    refine (congrArg Chain.length (hchain key)).trans ?_
    cases t.pending? key with
    | none => rfl
    | some p => exact List.length_map _
  rw [commit_of_le hts]
  dsimp only
  split
  · exact (linked_trimChains hvalid _ _).trans hpublish
  · exact hpublish

end Store

/-- Only a commit that takes effect adds to the keys that were committed. -/
theorem Ledger.committed_record (L : Ledger) {a : Action V} {answer : Answer V}
    (h : ∀ name ts, a = .commit name ts → answer ≠ .verdict (.ok ())) :
    (L.record a answer).committed = L.committed := by
  unfold Ledger.record
  split
  · rfl
  · rfl
  · split <;> rfl
  · exact absurd rfl (h _ _ rfl)
  · rfl
  · rfl
  · rfl

/-! ### The versions of all stores -/

namespace System

/-- The number of versions in all chains of all stores. -/
def linked (sys : System V) : Nat :=
  (sys.stores.map Store.linked).sum

/-- The number of pending writes of all open transactions. -/
def pendingWrites (sys : System V) : Nat :=
  (sys.txns.map fun b => b.2.txn.writes.length).sum

variable {sys after : System V} {L : Ledger} {a : Action V} {answer : Answer V} {name : String}
  {i : Nat} {s s' : Store V} {t : Txn V} {o : OpenTxn V} {txns : Bindings String (OpenTxn V)}

theorem linked_setStore (hs : sys.stores[i]? = some s) (s' : Store V) :
    (sys.setStore i s').linked + s.linked = sys.linked + s'.linked := by
  obtain ⟨hi, rfl⟩ := List.getElem?_eq_some_iff.1 hs
  have hset : ∀ r : Store V, ((sys.stores.set i r).map Store.linked).sum =
      ((sys.stores.map Store.linked).take i).sum + r.linked +
        ((sys.stores.map Store.linked).drop (i + 1)).sum := by
    intro r
    rw [List.map_set, List.sum_set, if_pos (by simpa using hi)]
  have hself := hset sys.stores[i]
  rw [List.set_getElem_self] at hself
  show ((sys.stores.set i s').map Store.linked).sum + _ = (sys.stores.map Store.linked).sum + _
  rw [hset, hself]
  omega

theorem sum_writes_unbind (hnames : (txns.map Prod.fst).Nodup) (hfind : txns.find name = some o) :
    ((txns.unbind name).map fun b => b.2.txn.writes.length).sum + o.txn.writes.length =
      (txns.map fun b => b.2.txn.writes.length).sum := by
  have hsum := ((Bindings.bind_perm hnames hfind).map fun b => b.2.txn.writes.length).sum_eq
  rw [← hsum, Bindings.bind, List.map_cons, List.sum_cons, Nat.add_comm]

theorem sum_writes_bind (txns : Bindings String (OpenTxn V)) (name : String) (o : OpenTxn V) :
    ((txns.bind name o).map fun b => b.2.txn.writes.length).sum =
      o.txn.writes.length + ((txns.unbind name).map fun b => b.2.txn.writes.length).sum := by
  rw [Bindings.bind, List.map_cons, List.sum_cons]

/-- The versions that there are and those that were trimmed are the keys that were committed and the
    pending writes. -/
def Balanced (sys : System V) (L : Ledger) : Prop :=
  sys.linked + sys.reclaimed = L.committed + sys.pendingWrites

theorem balanced_start (configs : List Config) (shared : Bool) :
    (start configs shared : System V).Balanced .blank := by
  have hzero : ∀ n ∈ (start configs shared : System V).stores.map Store.linked, n = 0 := by
    intro n hn
    obtain ⟨s, hs, rfl⟩ := List.mem_map.1 hn
    obtain ⟨config, -, rfl⟩ := List.mem_map.1 hs
    exact Store.linked_empty config
  have hlinked : (start configs shared : System V).linked = 0 := List.sum_eq_zero hzero
  unfold Balanced
  rw [hlinked]
  rfl

theorem Balanced.setStore (h : sys.Balanced L) (hs : sys.stores[i]? = some s)
    (hsame : s'.linked = s.linked) : (sys.setStore i s').Balanced L := by
  have hlinked := linked_setStore hs s'
  rw [hsame] at hlinked
  show (sys.setStore i s').linked + sys.reclaimed = L.committed + sys.pendingWrites
  rw [Nat.add_right_cancel hlinked, h]

/-- A write adds as much to the versions as to what is pending. -/
theorem Balanced.set (h : sys.Balanced L) (hr : sys.Reachable)
    (hfind : sys.txns.find name = some ⟨i, t⟩) (hs : sys.stores[i]? = some s) (key : Key) (value : V) :
    ({ sys.setStore i (s.set t key value).store with
        txns := sys.txns.bind name ⟨i, (s.set t key value).txn⟩ } : System V).Balanced
      (L.record (.set name key value)
        (.wrote (s.set t key value).verdict (s.set t key value).txn.writes.length)) := by
  obtain ⟨hsound, hdrafted⟩ := hr.openTxn hfind hs
  have hcommitted : (L.record (.set name key value)
      (.wrote (s.set t key value).verdict (s.set t key value).txn.writes.length)).committed =
        L.committed := L.committed_record fun _ _ ha => nomatch ha
  have hlinked := linked_setStore hs (s.set t key value).store
  have hset := Store.linked_set hsound hdrafted key value
  have hpending := sum_writes_unbind hr.sound.names hfind
  have hbind := sum_writes_bind sys.txns name ⟨i, (s.set t key value).txn⟩
  unfold Balanced pendingWrites at h ⊢
  show (sys.setStore i _).linked + sys.reclaimed = _
  dsimp only at hpending hbind ⊢
  omega

/-- The versions of a transaction go with it. -/
theorem Balanced.discard (h : sys.Balanced L) (hr : sys.Reachable)
    (hfind : sys.txns.find name = some ⟨i, t⟩) (hs : sys.stores[i]? = some s) :
    ({ sys.setStore i (s.discard t) with txns := sys.txns.unbind name } : System V).Balanced
      (L.close name) := by
  obtain ⟨hsound, hdrafted⟩ := hr.openTxn hfind hs
  have hlinked := linked_setStore hs (s.discard t)
  have hdiscard := Store.linked_discard hsound hdrafted
  have hpending := sum_writes_unbind hr.sound.names hfind
  unfold Balanced pendingWrites at h ⊢
  show (sys.setStore i _).linked + sys.reclaimed = L.committed + _
  dsimp only at hpending ⊢
  omega

/-- A transaction that is committed leaves its versions behind, whether or not they are trimmed at
    once. -/
theorem Balanced.commit (h : sys.Balanced L) (hr : sys.Reachable) (hL : L.Agrees sys)
    (hfind : sys.txns.find name = some ⟨i, t⟩) (hs : sys.stores[i]? = some s) {ts : Timestamp}
    (hts : t.readTs ≤ ts) :
    ({ sys.setStore i (s.commit t ts).store with
        txns := sys.txns.unbind name
        reclaimed := sys.reclaimed + (s.commit t ts).reclaimed } : System V).Balanced
      (L.record (.commit name ts : Action V) (.verdict (.ok ()))) := by
  obtain ⟨hsound, -⟩ := hr.openTxn hfind hs
  have hwrites := hr.sound.nodup_writes hfind hs
  have hcommitted : (L.record (.commit name ts : Action V) (.verdict (.ok ()))).committed =
      L.committed + t.writes.length := by
    have hfound := hL.find name
    rw [hfind, Option.map_some] at hfound
    unfold Ledger.record
    dsimp only
    rw [hfound, ← Txn.card_written hwrites]
    rfl
  have hlinked := linked_setStore hs (s.commit t ts).store
  have hcommit := Store.linked_commit hsound hts
  have hpending := sum_writes_unbind hr.sound.names hfind
  unfold Balanced pendingWrites at h ⊢
  show (sys.setStore i _).linked + (sys.reclaimed + _) = _
  dsimp only at hpending ⊢
  omega

theorem Balanced.effect (h : sys.Balanced L) (hr : sys.Reachable) (hL : L.Agrees sys)
    (heffect : sys.Effect a answer after) : after.Balanced (L.record a answer) := by
  induction heffect generalizing L with
  | @idle sys after a answer hstores htxns hreclaimed hsubject =>
    have hcommitted : (L.record a answer).committed = L.committed := by
      refine L.committed_record fun name ts ha hanswer => ?_
      obtain ⟨-, hunknown⟩ := hsubject name (by rw [ha]; rfl)
      cases hunknown.symm.trans hanswer
    unfold Balanced linked pendingWrites at h ⊢
    rw [hstores, htxns, hreclaimed, hcommitted, h]
  | @get sys name i t s key hfind hs =>
    exact h.setStore hs (Store.linked_get (hr.sound.stores i s hs).valid t key)
  | @set sys name i t s key value hfind hs => exact h.set hr hfind hs key value
  | @commit sys name i t s ts hfind hs =>
    by_cases hts : ts < t.readTs
    · rw [Store.commit_of_lt hts]
      exact h.discard hr hfind hs
    · have hverdict := (Store.commit_spec (hr.sound.stores i s hs).valid
        (hr.sound.nodup_writes hfind hs) (not_lt.1 hts)).1
      rw [hverdict]
      exact h.commit hr hL hfind hs (not_lt.1 hts)
  | @discard sys name i t s hfind hs => exact h.discard hr hfind hs
  | @scan sys n scan i t s _ _ hs =>
    exact h.setStore hs (Store.linked_scanNext (hr.sound.stores i s hs).valid t scan.cursor)
  | @sweep sys i s hs =>
    have hlinked := linked_setStore hs s.gc.1
    have hgc := Store.linked_gc (hr.sound.stores i s hs).valid
    unfold Balanced at h
    show (sys.setStore i _).linked + (sys.reclaimed + _) = L.committed + sys.pendingWrites
    omega
  | @advance sys i s ts hs => exact h.setStore hs rfl
  | @opened sys taken i name readTs update id s hfree hstores htxns hreclaimed hs =>
    have hlinked := linked_setStore (hstores ▸ hs) (s.openTxn id readTs update).1
    have hbind := sum_writes_bind taken.txns name ⟨i, ⟨id, readTs, update, []⟩⟩
    rw [htxns, Bindings.unbind_of_find_none hfree, List.length_nil, Nat.zero_add] at hbind
    have hsame : taken.linked = sys.linked := by rw [linked, hstores, linked]
    show (taken.setStore i _).linked + taken.reclaimed = L.committed +
      ((taken.txns.bind name _).map fun b => b.2.txn.writes.length).sum
    rw [Nat.add_right_cancel hlinked, hsame, hreclaimed, htxns, hbind]
    exact h
  | @reopened sys after i name readTs update answer hused _ ih =>
    obtain ⟨⟨j, t⟩, hfind⟩ := Option.isSome_iff_exists.1 hused
    obtain ⟨s, hs⟩ := hr.sound.exists_store hfind
    have hact := congrArg Prod.fst (act_discard hfind hs)
    have hagain := ih (L := L.close name) (hact ▸ h.discard hr hfind hs) (hr.act _)
      (hL.close (by rw [hact]))
    rwa [Ledger.record_openTxn_close] at hagain

theorem Balanced.exec (h : sys.Balanced L) (hr : sys.Reachable) (hL : L.Agrees sys)
    (run : List (Action V)) :
    (sys.exec run).Balanced (L.recordAll (run.zip (sys.answers run))) := by
  induction run generalizing L sys with
  | nil => exact h
  | cons a run ih =>
    have heffect := hr.sound.effect a
    exact ih (h.effect hr hL heffect) (hr.act a) (hL.effect hr.sound heffect)

/-- Versions are neither lost nor counted twice. Those that are linked in the chains of the stores,
    together with those that were trimmed, are as many as the different keys that each transaction had
    written which was committed with effect, summed up, and the pending writes of the open ones. -/
theorem versions_conserved (configs : List Config) (shared : Bool) (run : List (Action V)) :
    ((start configs shared).exec run).linked + ((start configs shared).exec run).reclaimed =
      ((start configs shared).ledger run).committed +
        ((start configs shared).exec run).pendingWrites :=
  (balanced_start configs shared).exec ⟨configs, shared, [], rfl⟩
    (Ledger.agrees_start configs shared) run

end System

end RadixStore
