import Mathlib
import RadixStore.Proofs.Store.Abandonment
import RadixStore.Proofs.Store.Conservation
import RadixStore.Proofs.Store.Places
import RadixStore.Proofs.Tree.Extensionality

/-!
# The order of the pending writes

The pending writes of a transaction are listed in some order, which means nothing. Whether they are
published, withdrawn or trimmed in this order or in another, the store that results is the same, down to
the nodes of its index, and so is the number of versions that are trimmed. The reason is that a store is
known from its places and its chains, and that different keys have different chains.
-/

namespace RadixStore

variable {V : Type}

namespace Store

variable {s s' s'' : Store V} {t : Txn V} {writes : List (Key × Pending V)} {keys keys' : List Key}

/-! ### What a store is made of -/

/-- A store is known from its places and its chains. -/
theorem eq_of_rechained (hs : s.index.Valid) (h' : s.Rechained s') (hkeeps' : s.Keeps s')
    (h'' : s.Rechained s'') (hkeeps'' : s.Keeps s'') (hchain : ∀ key, s'.chain key = s''.chain key) :
    s' = s'' := by
  have hplaces : s'.places = s''.places := (hkeeps' hs).2.trans (hkeeps'' hs).2.symm
  have hindex : s'.index = s''.index :=
    (h'.valid hs).ext_of_places (h''.valid hs) hplaces fun key => chain?_congr hplaces (hchain key)
  obtain ⟨index, active, watermark, config⟩ := s'
  obtain ⟨index', active', watermark', config'⟩ := s''
  have hactive : active = active' := h'.active_eq.trans h''.active_eq.symm
  have hwatermark : watermark = watermark' := h'.watermark_eq.trans h''.watermark_eq.symm
  have hconfig : config = config' := h'.config_eq.trans h''.config_eq.symm
  rw [show index = index' from hindex, hactive, hwatermark, hconfig]

/-! ### One pass over the pending writes -/

/-- The chains of different keys can be changed in any order. -/
theorem foldl_updateChain_perm {f : Pending V → Chain V → Chain V} (hf : ∀ p, f p .empty = .empty)
    (hs : s.index.Valid) (hw : (t.writes.map Prod.fst).Nodup) (hperm : writes.Perm t.writes) :
    writes.foldl (fun s w => s.updateChain w.1 (f w.2)) s =
      t.writes.foldl (fun s w => s.updateChain w.1 (f w.2)) s := by
  have hw' : (writes.map Prod.fst).Nodup := (hperm.map Prod.fst).nodup_iff.2 hw
  obtain ⟨hrechained', hchain'⟩ := chain_foldl_updateChain hf hs hw'
  obtain ⟨hrechained, hchain⟩ := chain_foldl_updateChain hf hs hw
  refine eq_of_rechained hs hrechained' (keeps_writes f writes s) hrechained
    (keeps_writes f t.writes s) fun key => ?_
  rw [hchain' key, hchain key, Bindings.find_perm hperm hw]

theorem publish_perm (hs : s.index.Valid) (hw : (t.writes.map Prod.fst).Nodup)
    (hperm : writes.Perm t.writes) (ts : Timestamp) :
    s.publish ts writes = s.publish ts t.writes :=
  foldl_updateChain_perm (f := fun p c => c.commit p.installed ts) (fun _ => rfl) hs hw hperm

theorem withdraw_perm (hs : s.index.Valid) (hw : (t.writes.map Prod.fst).Nodup)
    (hperm : writes.Perm t.writes) : s.withdraw writes = s.withdraw t.writes :=
  foldl_updateChain_perm (f := fun p c => c.abort p.installed) (fun _ => rfl) hs hw hperm

/-- Trimming goes by the keys that are named, whatever their order is. What is cut off is what the
    store has lost, so it is the same too. -/
theorem trimChains_perm (hs : s.index.Valid) (hperm : keys'.Perm keys) (safepoint : Timestamp) :
    s.trimChains safepoint keys' = s.trimChains safepoint keys := by
  have hkeeps : ∀ ks : List Key, s.Keeps (s.trimChains safepoint ks).1 := by
    intro ks
    rw [trimChains_fst]
    exact keeps_foldl (fun s key => keeps_trimChain s key safepoint) ks s
  have hrechained : ∀ ks : List Key, s.Rechained (s.trimChains safepoint ks).1 := by
    intro ks
    rw [trimChains_fst]
    exact (foldl_trimChain_spec hs safepoint ks).1
  have hstore : (s.trimChains safepoint keys').1 = (s.trimChains safepoint keys).1 := by
    refine eq_of_rechained hs (hrechained _) (hkeeps _) (hrechained _) (hkeeps _) fun key => ?_
    simp only [trimChains_fst, chain_trimmed hs, hperm.mem_iff]
  have hcut' := linked_trimChains hs safepoint keys'
  have hcut := linked_trimChains hs safepoint keys
  rw [hstore] at hcut'
  exact Prod.ext hstore (by omega)

/-! ### The end of a transaction -/

theorem discard_perm (hs : s.index.Valid) (hw : (t.writes.map Prod.fst).Nodup)
    (hperm : writes.Perm t.writes) : s.discard { t with writes } = s.discard t := by
  rw [discard_eq, discard_eq, withdraw_perm hs hw hperm]
  rfl

theorem commit_perm (hs : s.index.Valid) (hw : (t.writes.map Prod.fst).Nodup)
    (hperm : writes.Perm t.writes) (ts : Timestamp) :
    s.commit { t with writes } ts = s.commit t ts := by
  have hvalid : ((s.publish ts t.writes).closeTxn t).index.Valid := (publish_spec hs hw ts).1.valid hs
  have htrim := trimChains_perm hvalid (hperm.map Prod.fst)
    ((s.publish ts t.writes).closeTxn t).safepoint
  have hclose : ∀ u : Store V, u.closeTxn { t with writes } = u.closeTxn t := fun _ => rfl
  by_cases hts : ts < t.readTs
  · have hlisted : ts < ({ t with writes } : Txn V).readTs := hts
    rw [commit_of_lt hlisted, commit_of_lt hts, discard_perm hs hw hperm]
  · have hlisted : ({ t with writes } : Txn V).readTs ≤ ts := not_lt.1 hts
    rw [commit_of_le hlisted, commit_of_le (not_lt.1 hts)]
    dsimp only
    rw [publish_perm hs hw hperm, hclose, htrim]

end Store

/-! ### In a run -/

namespace System

variable {sys : System V} {name : String} {i : Nat} {t : Txn V} {s : Store V}
  {first second : List (Key × Pending V)}

/-- The system with the pending writes of the transaction `t`, called `name`, listed like this. -/
def relist (sys : System V) (name : String) (i : Nat) (t : Txn V) (writes : List (Key × Pending V)) :
    System V :=
  { sys with txns := sys.txns.bind name ⟨i, { t with writes }⟩ }

theorem find_relist (sys : System V) (name : String) (i : Nat) (t : Txn V)
    (writes : List (Key × Pending V)) :
    (sys.relist name i t writes).txns.find name = some ⟨i, { t with writes }⟩ :=
  Bindings.find_bind_self _ _ _

/-- However the writes are listed, the end of the transaction removes them. -/
theorem act_discard_relist (hs : sys.stores[i]? = some s) (writes : List (Key × Pending V)) :
    (sys.relist name i t writes).act (.discard name) =
      ({ sys.setStore i (s.discard { t with writes }) with txns := sys.txns.unbind name }, .done) := by
  rw [act_discard (find_relist sys name i t writes) hs, relist, Bindings.unbind_bind]
  rfl

theorem act_commit_relist (hs : sys.stores[i]? = some s) (writes : List (Key × Pending V))
    (ts : Timestamp) : (sys.relist name i t writes).act (.commit name ts) =
      ({ sys.setStore i (s.commit { t with writes } ts).store with
          txns := sys.txns.unbind name
          reclaimed := sys.reclaimed + (s.commit { t with writes } ts).reclaimed },
        .verdict (s.commit { t with writes } ts).verdict) := by
  rw [act_commit (find_relist sys name i t writes) hs, relist, Bindings.unbind_bind]
  rfl

/-- The order of the pending writes does not matter. In every reachable system an open transaction can be
    committed, at any timestamp, or discarded with its pending writes in any two orders: the verdict, the
    store, the number of versions trimmed on the way and whatever else there is in the system are the
    same. In a commit the writes may even be published in one order and their chains be trimmed in the
    other. -/
theorem end_of_perm_writes (h : sys.Reachable) (hfind : sys.txns.find name = some ⟨i, t⟩)
    (hs : sys.stores[i]? = some s) (hfirst : first.Perm t.writes) (hsecond : second.Perm t.writes) :
    (∀ ts, s.commit { t with writes := first } ts = s.commit { t with writes := second } ts ∧
      (sys.relist name i t first).act (.commit name ts) =
        (sys.relist name i t second).act (.commit name ts) ∧
      ∀ safepoint,
        ((s.publish ts first).closeTxn t).trimChains safepoint (second.map Prod.fst) =
          ((s.publish ts second).closeTxn t).trimChains safepoint (first.map Prod.fst)) ∧
    s.discard { t with writes := first } = s.discard { t with writes := second } ∧
    (sys.relist name i t first).act (.discard name) =
      (sys.relist name i t second).act (.discard name) ∧
    ∀ j readTs update, (sys.relist name i t first).act (.openTxn j name readTs update) =
      (sys.relist name i t second).act (.openTxn j name readTs update) := by
  have hvalid := (h.sound.stores i s hs).valid
  have hw := h.sound.nodup_writes hfind hs
  have hcommit : ∀ ts, s.commit { t with writes := first } ts =
      s.commit { t with writes := second } ts := fun ts =>
    (Store.commit_perm hvalid hw hfirst ts).trans (Store.commit_perm hvalid hw hsecond ts).symm
  have hdiscard : s.discard { t with writes := first } = s.discard { t with writes := second } :=
    (Store.discard_perm hvalid hw hfirst).trans (Store.discard_perm hvalid hw hsecond).symm
  have hact : (sys.relist name i t first).act (.discard name) =
      (sys.relist name i t second).act (.discard name) := by
    rw [act_discard_relist hs, act_discard_relist hs, hdiscard]
  refine ⟨fun ts => ⟨hcommit ts, ?_, fun safepoint => ?_⟩, hdiscard, hact, fun j readTs update => ?_⟩
  · rw [act_commit_relist hs, act_commit_relist hs, hcommit ts]
  · rw [Store.publish_perm hvalid hw hfirst, Store.publish_perm hvalid hw hsecond]
    have hpublished : ((s.publish ts t.writes).closeTxn t).index.Valid :=
      (Store.publish_spec hvalid hw ts).1.valid hvalid
    exact Store.trimChains_perm hpublished ((hsecond.trans hfirst.symm).map Prod.fst) safepoint
  · rw [act_openTxn_eq, hact, ← act_openTxn_eq]

/-- Three keys are written, two of them on top of committed versions that everybody is past. The commit
    trims these, in whatever order it goes through the keys. -/
theorem end_of_perm_writes_amid_trimming :
    let sys : System Nat := (start [⟨true, 2⟩] false).exec
      [.openTxn 0 "a" 1 true, .set "a" [7] 4, .commit "a" 2, .openTxn 0 "a" 3 true, .set "a" [7] 5,
        .set "a" [8] 6, .commit "a" 4, .advanceWatermark 0 9, .openTxn 0 "w" 6 true, .set "w" [7] 6,
        .set "w" [8] 9, .set "w" [9] 1]
    let seven : Key × Pending Nat := ([7], ⟨⟨2, some 1⟩, 6⟩)
    let eight : Key × Pending Nat := ([8], ⟨⟨1, some 0⟩, 9⟩)
    let nine : Key × Pending Nat := ([9], ⟨⟨0, none⟩, 1⟩)
    let t : Txn Nat := ⟨3, 6, true, [nine, eight, seven]⟩
    sys.txns.find "w" = some ⟨0, t⟩ ∧
      [seven, nine, eight].Perm t.writes ∧ [eight, seven, nine].Perm t.writes ∧
      ∃ s, sys.stores[0]? = some s ∧
        s.commit { t with writes := [seven, nine, eight] } 9 =
          s.commit { t with writes := [eight, seven, nine] } 9 ∧
        (s.commit { t with writes := [seven, nine, eight] } 9).reclaimed = 3 ∧
        s.discard { t with writes := [seven, nine, eight] } =
          s.discard { t with writes := [eight, seven, nine] } := by
  intro sys seven eight nine t
  have hreachable : sys.Reachable := ⟨_, _, _, rfl⟩
  have hfind : sys.txns.find "w" = some ⟨0, t⟩ := by decide +kernel
  obtain ⟨s, hs⟩ := hreachable.sound.exists_store hfind
  have hfirst : [seven, nine, eight].Perm t.writes := by decide
  have hsecond : [eight, seven, nine].Perm t.writes := by decide
  obtain ⟨hcommit, hdiscard, -⟩ := end_of_perm_writes hreachable hfind hs hfirst hsecond
  have hreclaimed : (sys.stores[0]?.map fun s : Store Nat =>
      (s.commit { t with writes := [seven, nine, eight] } 9).reclaimed) = some 3 := by
    decide +kernel
  rw [hs, Option.map_some, Option.some_inj] at hreclaimed
  exact ⟨hfind, hfirst, hsecond, s, hs, (hcommit 9).1, hreclaimed, hdiscard⟩

end System

end RadixStore
