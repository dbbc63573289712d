import Mathlib
import RadixStore.Proofs.Cursor.Map
import RadixStore.Proofs.Store.Invariant

/-!
# Stores after a thorough trimming

A store with all chains trimmed against the safepoint answers everything that a transaction asks or
does as the store itself, and the two are left with the same store after another trimming. So what
counts of a store is what is left after a thorough trimming, and how thoroughly it was trimmed
before does not matter.
-/

namespace RadixStore

variable {V : Type}

namespace Chain

theorem Shape.supersede_pruned {c : Chain V} {d : Draft V} {hist : List (Version V)}
    (h : c.Shape (some d) hist) (safepoint : Timestamp) (value : V) :
    (c.pruned safepoint).supersede (installedOn d.serial hist) value =
      (c.supersede (installedOn d.serial hist) value).map
        fun r => (r.1.pruned safepoint, r.2) := by
  have hpruned := (h.pruned : (c.pruned safepoint).Shape _ _).supersede value
  rw [installedOn_kept, installedOn_kept] at hpruned
  rw [hpruned, h.supersede value]
  simp [Chain.pruned, kept_layout]

/-- A commit makes of two chains that differ by trimming two that differ by trimming. -/
theorem Shape.commit_pruned {c c' : Chain V} {d : Draft V} {hist hist' : List (Version V)}
    {safepoint : Timestamp} (h : c.Shape (some d) hist) (h' : c'.Shape (some d) hist')
    (hsame : c.pruned safepoint = c'.pruned safepoint) (ts : Timestamp) :
    (c.commit (installedOn d.serial hist) ts).pruned safepoint =
      (c'.commit (installedOn d.serial hist') ts).pruned safepoint := by
  have hkept := h.kept_eq h' hsame
  obtain ⟨-, hnext⟩ := Chain.mk.inj hsame
  have hpublished := pruned_published le_rfl hkept d ts
  rw [h.commit, h'.commit, Chain.pruned, Chain.pruned, hpublished, hnext]

theorem Shape.abort_pruned {c c' : Chain V} {d : Draft V} {hist hist' : List (Version V)}
    {safepoint : Timestamp} (h : c.Shape (some d) hist) (h' : c'.Shape (some d) hist')
    (hsame : c.pruned safepoint = c'.pruned safepoint) :
    (c.abort (installedOn d.serial hist)).pruned safepoint =
      (c'.abort (installedOn d.serial hist')).pruned safepoint := by
  have hkept := h.kept_eq h' hsame
  obtain ⟨-, hnext⟩ := Chain.mk.inj hsame
  rw [h.abort, h'.abort, Chain.pruned, Chain.pruned, hkept, hnext]

end Chain

namespace Store

/-- The store with all chains trimmed against the safepoint, and without trimming on its own. -/
def trimmed (s : Store V) : Store V :=
  { s with index := s.index.map (Chain.pruned s.safepoint), config := .standard }

variable {s s' : Store V} {t : Txn V} {key : Key} {c : Chain V}

@[simp] theorem safepoint_trimmed (s : Store V) : s.trimmed.safepoint = s.safepoint := rfl

@[simp] theorem size_trimmed (s : Store V) : s.trimmed.size = s.size := rfl

theorem chain?_trimmed (s : Store V) (key : Key) :
    s.trimmed.chain? key = (s.chain? key).map (Chain.pruned s.safepoint) :=
  Tree.get?_map _ _ _

theorem updateChain_trimmed (s : Store V) (key : Key) (c : Chain V) :
    s.trimmed.updateChain key (fun _ => c.pruned s.safepoint) =
      (s.updateChain key fun _ => c).trimmed := by
  have hindex : (s.index.map (Chain.pruned s.safepoint)).update key
      (fun _ => c.pruned s.safepoint) =
        (s.index.update key fun _ => c).map (Chain.pruned s.safepoint) :=
    Tree.update_map (g := Chain.pruned s.safepoint) (f := fun _ => c) (fun _ => rfl) s.index key
  exact congrArg (fun index => (⟨index, s.active, s.watermark, .standard⟩ : Store V)) hindex

/-! ### Reading -/

theorem lookAt_trimmed (hle : s.safepoint ≤ t.readTs) (key : Key) (c : Chain V) :
    s.trimmed.lookAt t key (c.pruned s.safepoint) =
      ((s.lookAt t key c).1, (s.lookAt t key c).2.trimmed) := by
  unfold lookAt
  rw [Chain.look_pruned hle]
  exact Prod.ext rfl (updateChain_trimmed s key (c.look t.readTs t.id).2)

/-- A transaction that does not read below the safepoint is told the same. -/
theorem get_trimmed (hle : s.safepoint ≤ t.readTs) (key : Key) :
    s.trimmed.get t key = ((s.get t key).1, (s.get t key).2.trimmed) := by
  unfold Store.get
  rw [chain?_trimmed]
  rcases t.pending? key with _ | p
  · rcases s.chain? key with _ | c
    · rfl
    · exact lookAt_trimmed hle key c
  · rfl

theorem visit_trimmed (hle : s.safepoint ≤ t.readTs) (l : Leaf (Chain V)) :
    s.trimmed.visit t (l.map (Chain.pruned s.safepoint)) =
      ((s.visit t l).1, (s.visit t l).2.trimmed) := by
  cases hp : t.pending? l.key with
  | some p => rw [visit_of_pending hp, visit_of_pending (l := l.map _) hp]; rfl
  | none =>
    rw [visit_of_free hp, visit_of_free (l := l.map _) hp]
    simp [Leaf.map, lookAt_trimmed hle]

theorem scanUpTo_trimmed (fuel : Nat) (hle : s.safepoint ≤ t.readTs) (c : Cursor) :
    s.trimmed.scanUpTo t fuel c =
      ⟨(s.scanUpTo t fuel c).item, (s.scanUpTo t fuel c).cursor,
        (s.scanUpTo t fuel c).store.trimmed⟩ := by
  induction fuel generalizing s c with
  | zero => rfl
  | succ fuel ih =>
    obtain ⟨hitem, hcursor⟩ := c.next_map (Chain.pruned s.safepoint) s.index
    have hitem : (c.next s.trimmed.index).item = _ := hitem
    have hcursor : (c.next s.trimmed.index).cursor = _ := hcursor
    unfold scanUpTo
    dsimp only
    rw [hitem, hcursor]
    rcases (c.next s.index).item with _ | l
    · rfl
    · have hafter : (s.visit t l).2.safepoint ≤ t.readTs := by
        rw [(rechained_visit s t l).safepoint_eq]
        exact hle
      simp only [Option.map_some, visit_trimmed hle]
      rcases hvisit : s.visit t l with ⟨_ | item, s'⟩
      · rw [hvisit] at hafter
        exact ih hafter _
      · rfl

theorem scanNext_trimmed (hle : s.safepoint ≤ t.readTs) (c : Cursor) :
    s.trimmed.scanNext t c =
      ⟨(s.scanNext t c).item, (s.scanNext t c).cursor, (s.scanNext t c).store.trimmed⟩ :=
  scanUpTo_trimmed (s.size + 1) hle c

/-! ### Writing -/

/-- Every pending write of the transaction is a draft in the chain of its key. -/
def Drafted (s : Store V) (t : Txn V) : Prop :=
  ∀ key p, t.pending? key = some p → ∃ d hist, (s.chain key).Shape (some d) hist ∧
    p.installed = installedOn d.serial hist ∧ d.owner = t.id ∧ d.value = p.value

theorem set_trimmed (h : s.Drafted t) (key : Key) (value : V) :
    s.trimmed.set t key value =
      ⟨(s.set t key value).verdict, (s.set t key value).store.trimmed, (s.set t key value).txn⟩ := by
  unfold Store.set
  split
  · cases hp : t.pending? key with
    | some p =>
      dsimp only
      unfold setAgain
      rw [chain?_trimmed]
      rcases hc : s.chain? key with _ | c
      · rfl
      · obtain ⟨d, hist, hshape, hinstalled, -⟩ := h key p hp
        rw [chain_eq_of_chain? hc] at hshape
        simp only [Option.map_some, Option.bind_some, hinstalled, hshape.supersede_pruned]
        rcases c.supersede (installedOn d.serial hist) value with _ | ⟨c', i⟩
        · rfl
        · simp only [Option.map_some, updateChain_trimmed]
    | none =>
      obtain ⟨hvalue, hwritten⟩ := Tree.getOrInsert_map (Chain.pruned s.safepoint) s.index key
        (fun _ => Chain.empty) (fun _ => Chain.empty) Chain.pruned_empty.symm
      -- making sure that the key has a chain can be done before or after
      have hensured : ({ s.trimmed with index :=
          (s.trimmed.index.getOrInsert key fun _ => .empty).written.tree } : Store V) =
          ({ s with index := (s.index.getOrInsert key fun _ => .empty).written.tree } :
            Store V).trimmed := by
        have htree := congrArg Written.tree hwritten
        exact congrArg (fun index => (⟨index, s.active, s.watermark, .standard⟩ : Store V)) htree
      have hvalue : (s.trimmed.index.getOrInsert key fun _ => .empty).value =
          (s.index.getOrInsert key fun _ => .empty).value.pruned s.safepoint := hvalue
      dsimp only
      unfold setFirst
      dsimp only
      rw [hensured, hvalue, Chain.install_pruned]
      rcases (s.index.getOrInsert key fun _ => Chain.empty).value.install t.id t.readTs value with
        e | ⟨c, i⟩
      · rfl
      · have hinstalled := updateChain_trimmed
          ({ s with index := (s.index.getOrInsert key fun _ => .empty).written.tree } : Store V) key c
        exact congrArg (fun r => SetResult.mk (.ok ()) r _) hinstalled
  · rfl

/-! ### What is left after a thorough trimming -/

/-- Stores that agree but for trimming at or below the safepoint agree after a thorough one. -/
theorem trimmed_congr (hactive : s'.active = s.active) (hwatermark : s'.watermark = s.watermark)
    {safepoint : Timestamp} (hle : safepoint ≤ s.safepoint)
    (hindex : s'.index.map (Chain.pruned safepoint) = s.index.map (Chain.pruned safepoint)) :
    s'.trimmed = s.trimmed := by
  have hsafe : s'.safepoint = s.safepoint := by
    unfold Store.safepoint
    rw [hactive, hwatermark]
  have hagain : ∀ r : Store V, r.index.map (Chain.pruned s.safepoint) =
      (r.index.map (Chain.pruned safepoint)).map (Chain.pruned s.safepoint) := by
    intro r
    rw [Tree.map_map]
    congr 1
    funext c
    exact (Chain.pruned_pruned hle c).symm
  unfold trimmed
  rw [hactive, hwatermark, hsafe, hagain s, hagain s', hindex]

/-- What stores with the same left agree in. -/
theorem of_trimmed_eq (h : s'.trimmed = s.trimmed) :
    s'.active = s.active ∧ s'.watermark = s.watermark ∧ s'.safepoint = s.safepoint ∧
      s'.index.map (Chain.pruned s.safepoint) = s.index.map (Chain.pruned s.safepoint) := by
  obtain ⟨hindex, hactive, hwatermark, -⟩ := Store.mk.inj h
  have hsafe : s'.safepoint = s.safepoint := by
    unfold Store.safepoint
    rw [hactive, hwatermark]
  rw [hsafe] at hindex
  exact ⟨hactive, hwatermark, hsafe, hindex⟩

theorem trimmed_trimChain (hs : s.index.Valid) {safepoint : Timestamp}
    (hle : safepoint ≤ s.safepoint) (key : Key) :
    (s.trimChain key safepoint).1.trimmed = s.trimmed := by
  unfold trimChain
  rcases hc : s.chain? key with _ | c
  · rfl
  · dsimp only
    split
    · rfl
    · have hself : s.updateChain key (fun _ => c) = s := by
        unfold updateChain
        rw [hs.update_self hc rfl]
      show (s.updateChain key fun _ => c.pruned safepoint).trimmed = s.trimmed
      rw [← updateChain_trimmed, Chain.pruned_pruned hle, updateChain_trimmed, hself]

theorem trimmed_foldl_trimChain (hs : s.index.Valid) {safepoint : Timestamp}
    (hle : safepoint ≤ s.safepoint) (keys : List Key) :
    (keys.foldl (fun s key => (s.trimChain key safepoint).1) s).trimmed = s.trimmed := by
  induction keys generalizing s with
  | nil => rfl
  | cons key keys ih =>
    obtain ⟨hrechained, -⟩ := trimChain_spec hs key safepoint
    rw [List.foldl_cons, ih (hrechained.valid hs) (hrechained.safepoint_eq ▸ hle),
      trimmed_trimChain hs hle]

theorem trimmed_gc (hs : s.index.Valid) : s.gc.1.trimmed = s.trimmed := by
  unfold Store.gc
  rw [sweepKeys_fst]
  exact trimmed_foldl_trimChain hs le_rfl _

/-! ### Opening and ending -/

/-- The safepoint does not go back as long as nobody joins below it and the watermark does not. -/
theorem safepoint_mono (hs : s.active.Ordered) (hs' : s'.active.Ordered)
    (hwatermark : s.watermark ≤ s'.watermark)
    (hmembers : ∀ ts ∈ s'.active.members, s.safepoint ≤ ts) : s.safepoint ≤ s'.safepoint := by
  have hle := ((le_safepoint_iff hs).1 le_rfl).1
  exact (le_safepoint_iff hs').2 ⟨hle.trans hwatermark, hmembers⟩

theorem trimmed_advanceWatermark (hs : s.active.Ordered) (h : s'.trimmed = s.trimmed)
    (ts : Timestamp) : (s'.advanceWatermark ts).trimmed = (s.advanceWatermark ts).trimmed := by
  obtain ⟨hactive, hwatermark, -, hindex⟩ := of_trimmed_eq h
  have hmono : s.safepoint ≤ (s.advanceWatermark ts).safepoint :=
    safepoint_mono hs hs (le_max_left _ _) ((le_safepoint_iff hs).1 le_rfl).2
  refine trimmed_congr hactive ?_ hmono hindex
  show max s'.watermark ts = max s.watermark ts
  rw [hwatermark]

theorem trimmed_openTxn (hs : s.active.Ordered) (h : s'.trimmed = s.trimmed) (id : TxnId)
    {readTs : Timestamp} (hread : s.watermark ≤ readTs) (update : Bool) :
    (s'.openTxn id readTs update).1.trimmed = (s.openTxn id readTs update).1.trimmed := by
  obtain ⟨hactive, hwatermark, -, hindex⟩ := of_trimmed_eq h
  obtain ⟨hle, hmembers⟩ := (le_safepoint_iff hs).1 le_rfl
  have hmono : s.safepoint ≤ (s.openTxn id readTs update).1.safepoint := by
    refine safepoint_mono hs (hs.enter readTs) le_rfl ?_
    intro ts hts
    have hts : ts ∈ (s.active.enter readTs).members := hts
    rw [Registry.members_enter] at hts
    rcases Multiset.mem_cons.1 hts with rfl | hts
    · exact hle.trans hread
    · exact hmembers ts hts
  refine trimmed_congr ?_ hwatermark hmono hindex
  show s'.active.enter readTs = s.active.enter readTs
  rw [hactive]

theorem trimmed_closeTxn {txns : Multiset (Txn V)} (hs : s.Sound (t ::ₘ txns))
    (h : s'.trimmed = s.trimmed) : (s'.closeTxn t).trimmed = (s.closeTxn t).trimmed := by
  obtain ⟨hactive, hwatermark, -, hindex⟩ := of_trimmed_eq h
  have hmono : s.safepoint ≤ (s.closeTxn t).safepoint := by
    refine safepoint_mono hs.ordered hs.closeTxn.ordered le_rfl ?_
    intro ts hts
    rw [hs.closeTxn.members_eq] at hts
    obtain ⟨u, hu, rfl⟩ := Multiset.mem_map.1 hts
    exact hs.safepoint_le (Multiset.mem_cons_of_mem hu)
  refine trimmed_congr ?_ hwatermark hmono hindex
  show s'.active.leave t.readTs = s.active.leave t.readTs
  rw [hactive]

/-! ### Ending the pending writes -/

theorem Drafted.isSome (h : s.Drafted t) {p : Pending V} (hp : t.pending? key = some p) :
    (s.chain? key).isSome := by
  obtain ⟨d, hist, hshape, -⟩ := h key p hp
  rcases hc : s.chain? key with _ | c
  · have hversions := hshape.versions_eq
    simp [chain, hc, Chain.empty, layout] at hversions
  · rfl

theorem trimmed_updateChain (h : s'.trimmed = s.trimmed) {f : Chain V → Chain V}
    (hsome : (s.chain? key).isSome)
    (hf : (f (s'.chain key)).pruned s.safepoint = (f (s.chain key)).pruned s.safepoint) :
    (s'.updateChain key f).trimmed = (s.updateChain key f).trimmed := by
  have hconst : ∀ {r : Store V} {c : Chain V}, r.chain? key = some c →
      r.updateChain key f = r.updateChain key fun _ => f c := by
    intro r c hc
    unfold updateChain
    have hcongr : r.index.update key f = r.index.update key fun _ => f c :=
      Tree.update_congr hc rfl
    rw [hcongr]
  obtain ⟨-, -, hsafe, -⟩ := of_trimmed_eq h
  have hchain := congrArg (Store.chain? · key) h
  rw [chain?_trimmed, chain?_trimmed] at hchain
  obtain ⟨c, hc⟩ := Option.isSome_iff_exists.1 hsome
  rw [hc, Option.map_some] at hchain
  obtain ⟨c', hc', -⟩ := Option.map_eq_some_iff.1 hchain
  rw [chain_eq_of_chain? hc, chain_eq_of_chain? hc'] at hf
  rw [hconst hc, hconst hc', ← updateChain_trimmed, ← updateChain_trimmed, h, hsafe, hf]

theorem trimmed_foldl_updateChain {f : Pending V → Chain V → Chain V}
    {writes : List (Key × Pending V)} (hs : s.index.Valid) (hs' : s'.index.Valid)
    (h : s'.trimmed = s.trimmed) (hw : (writes.map Prod.fst).Nodup)
    (hsome : ∀ w ∈ writes, (s.chain? w.1).isSome)
    (hf : ∀ w ∈ writes, (f w.2 (s'.chain w.1)).pruned s.safepoint =
      (f w.2 (s.chain w.1)).pruned s.safepoint) :
    (writes.foldl (fun s w => s.updateChain w.1 (f w.2)) s').trimmed =
      (writes.foldl (fun s w => s.updateChain w.1 (f w.2)) s).trimmed := by
  induction writes generalizing s s' with
  | nil => exact h
  | cons w writes ih =>
    obtain ⟨hnot, hw⟩ := List.nodup_cons.1 hw
    have hfirst := trimmed_updateChain h (hsome w (by simp)) (hf w (by simp))
    -- the other keys that were written still have the chains that they had
    have hother : ∀ {r : Store V}, r.index.Valid → ∀ v ∈ writes,
        (r.updateChain w.1 (f w.2)).chain? v.1 = r.chain? v.1 := by
      intro r hr v hv
      have hne : v.1 ≠ w.1 := fun heq => hnot (heq ▸ List.mem_map_of_mem hv)
      have hupdate : (r.updateChain w.1 (f w.2)).chain? = Function.update r.chain? w.1
          ((r.chain? w.1).map (f w.2)) := hr.get?_update
      have hget := congrFun hupdate v.1
      rwa [Function.update_of_ne hne] at hget
    have hchain : ∀ {r : Store V}, r.index.Valid → ∀ v ∈ writes,
        (r.updateChain w.1 (f w.2)).chain v.1 = r.chain v.1 := by
      intro r hr v hv
      unfold chain
      rw [hother hr v hv]
    refine ih ((rechained_updateChain s w.1 _).valid hs) ((rechained_updateChain s' w.1 _).valid hs')
      hfirst hw ?_ ?_
    · intro v hv
      rw [hother hs v hv]
      exact hsome v (by simp [hv])
    · intro v hv
      rw [hchain hs v hv, hchain hs' v hv]
      exact hf v (by simp [hv])

/-- In stores that agree but for trimming, the drafts of a transaction are the same, and so is what
    stands behind them but for trimming. -/
theorem Drafted.shapes (h : s.Drafted t) (h' : s'.Drafted t) {p : Pending V}
    (hp : t.pending? key = some p) : ∃ d hist hist', (s.chain key).Shape (some d) hist ∧
      (s'.chain key).Shape (some d) hist' ∧ p.installed = installedOn d.serial hist ∧
      p.installed = installedOn d.serial hist' := by
  obtain ⟨⟨owner, serial, value⟩, hist, hshape, hi, rfl, rfl⟩ := h key p hp
  obtain ⟨⟨owner', serial', value'⟩, hist', hshape', hi', rfl, rfl⟩ := h' key p hp
  have hserial : serial = serial' := congrArg Installed.node (hi.symm.trans hi')
  subst hserial
  exact ⟨_, _, _, hshape, hshape', hi, hi'⟩

theorem pruned_chain (h : s'.trimmed = s.trimmed) (key : Key) :
    (s'.chain key).pruned s.safepoint = (s.chain key).pruned s.safepoint := by
  have hchain : ∀ r : Store V, r.trimmed.chain key = (r.chain key).pruned r.safepoint := by
    intro r
    unfold chain
    rw [chain?_trimmed]
    rcases r.chain? key with _ | c <;> rfl
  obtain ⟨-, -, hsafe, -⟩ := of_trimmed_eq h
  rw [← hchain s, ← h, hchain s', hsafe]

section Ending

variable {txns : Multiset (Txn V)} (hs : s.Sound (t ::ₘ txns)) (hs' : s'.Sound (t ::ₘ txns))
  (hd : s.Drafted t) (hd' : s'.Drafted t) (h : s'.trimmed = s.trimmed)

include hs hs' hd hd' h

theorem trimmed_publish (ts : Timestamp) :
    (s'.publish ts t.writes).trimmed = (s.publish ts t.writes).trimmed := by
  have hw := hs.writes t (by simp)
  refine trimmed_foldl_updateChain (f := fun p c => c.commit p.installed ts) hs.valid hs'.valid h hw
    (fun w hmem => hd.isSome (t.pending?_of_mem hw hmem)) ?_
  intro w hmem
  obtain ⟨d, hist, hist', hshape, hshape', hi, hi'⟩ := hd.shapes hd' (t.pending?_of_mem hw hmem)
  have hcommit := hshape'.commit_pruned hshape (pruned_chain h w.1) ts
  rwa [← hi, ← hi'] at hcommit

theorem trimmed_withdraw : (s'.withdraw t.writes).trimmed = (s.withdraw t.writes).trimmed := by
  have hw := hs.writes t (by simp)
  refine trimmed_foldl_updateChain (f := fun p c => c.abort p.installed) hs.valid hs'.valid h hw
    (fun w hmem => hd.isSome (t.pending?_of_mem hw hmem)) ?_
  intro w hmem
  obtain ⟨d, hist, hist', hshape, hshape', hi, hi'⟩ := hd.shapes hd' (t.pending?_of_mem hw hmem)
  have habort := hshape'.abort_pruned hshape (pruned_chain h w.1)
  rwa [← hi, ← hi'] at habort

theorem trimmed_discard : (s'.discard t).trimmed = (s.discard t).trimmed := by
  obtain ⟨hrechained, -⟩ := withdraw_spec hs.valid (hs.writes t (by simp))
  rw [discard_eq, discard_eq]
  exact trimmed_closeTxn (hs.rechained hrechained) (trimmed_withdraw hs hs' hd hd' h)

omit hs' hd hd' h in
/-- Whether a commit trims on its own makes no difference to what is left. -/
theorem trimmed_commit_of_le {ts : Timestamp} (hts : t.readTs ≤ ts) :
    (s.commit t ts).verdict = .ok () ∧
      (s.commit t ts).store.trimmed = ((s.publish ts t.writes).closeTxn t).trimmed := by
  obtain ⟨hrechained, -⟩ := publish_spec hs.valid (hs.writes t (by simp)) ts
  obtain ⟨hverdict, hstore | ⟨-, hstore⟩⟩ := commit_cases (s := s) hts
  · exact ⟨hverdict, congrArg trimmed hstore⟩
  · rw [hstore]
    exact ⟨hverdict, trimmed_foldl_trimChain (hs.rechained hrechained).closeTxn.valid le_rfl _⟩

theorem trimmed_commit (ts : Timestamp) :
    (s'.commit t ts).verdict = (s.commit t ts).verdict ∧
      (s'.commit t ts).store.trimmed = (s.commit t ts).store.trimmed := by
  rcases lt_or_ge ts t.readTs with hts | hts
  · rw [commit_of_lt hts, commit_of_lt hts]
    exact ⟨rfl, trimmed_discard hs hs' hd hd' h⟩
  · obtain ⟨hverdict, hstore⟩ := trimmed_commit_of_le hs hts
    obtain ⟨hverdict', hstore'⟩ := trimmed_commit_of_le hs' hts
    obtain ⟨hrechained, -⟩ := publish_spec hs.valid (hs.writes t (by simp)) ts
    refine ⟨hverdict'.trans hverdict.symm, ?_⟩
    rw [hstore, hstore']
    exact trimmed_closeTxn (hs.rechained hrechained) (trimmed_publish hs hs' hd hd' h ts)

end Ending

end Store

end RadixStore
