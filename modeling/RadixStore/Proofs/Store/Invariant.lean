import Mathlib
import RadixStore.Proofs.Store.Cell
import RadixStore.Proofs.Store.Chains
import RadixStore.Proofs.Store.Exits
import RadixStore.Proofs.Store.Registry

/-!
# The operations of a store

Every operation of an open transaction, and every other one, keeps the index valid, the registry
exact and the identities of the open transactions apart, and means steps of the kinds that are known
for every key.
-/

namespace RadixStore

variable {V : Type}

namespace Store

/-- The store is in good order when these transactions are open on it. -/
structure Sound (s : Store V) (txns : Multiset (Txn V)) : Prop where
  valid : s.index.Valid
  ordered : s.active.Ordered
  members_eq : s.active.members = txns.map Txn.readTs
  writes : ∀ t ∈ txns, (t.writes.map Prod.fst).Nodup
  ids : (txns.map Txn.id).Nodup

/-- What the store and the open transactions amount to for one key. -/
def cell (s : Store V) (txns : Multiset (Txn V)) (next : TxnId) (key : Key) : Cell V :=
  ⟨s.chain key, txns, next⟩

/-- The store `s'` with the open transactions `txns'` is in good order and comes from `s` with
    `txns` by steps for every key. -/
structure Leads (s : Store V) (txns : Multiset (Txn V)) (s' : Store V)
    (txns' : Multiset (Txn V)) : Prop where
  sound : s'.Sound txns'
  steps : ∀ next key, Cell.Steps key (s.cell txns next key) (s'.cell txns' next key)

variable {s s' s'' : Store V} {txns txns' txns'' : Multiset (Txn V)} {t : Txn V} {key : Key}

theorem Leads.trans (h : s.Leads txns s' txns') (h' : s'.Leads txns' s'' txns'') :
    s.Leads txns s'' txns'' :=
  ⟨h'.sound, fun next key => (h.steps next key).trans (h'.steps next key)⟩

theorem sound_empty (config : Config) : (empty config : Store V).Sound 0 :=
  ⟨Tree.valid_empty, Registry.ordered_empty, rfl, by simp, by simp⟩

theorem Sound.rechained (h : s.Sound txns) (hs : s.Rechained s') : s'.Sound txns :=
  ⟨hs.valid h.valid, hs.active_eq ▸ h.ordered, hs.active_eq ▸ h.members_eq, h.writes, h.ids⟩

/-- No open transaction reads below the safepoint. -/
theorem Sound.safepoint_le (h : s.Sound txns) (ht : t ∈ txns) : s.safepoint ≤ t.readTs := by
  have hle := ((Store.le_safepoint_iff h.ordered).1 le_rfl).2
  exact hle _ (h.members_eq ▸ Multiset.mem_map_of_mem Txn.readTs ht)

/-! ### Reading -/

theorem ReadBy.steps {c c' : Chain V} (h : ReadBy t c c') (ht : t ∈ txns) (next : TxnId) :
    Cell.Steps key ⟨c, txns, next⟩ ⟨c', txns, next⟩ := by
  induction h with
  | refl => exact .refl
  | tail _ hread ih =>
    subst hread
    exact ih.tail (.read ht)

theorem Sound.get (h : s.Sound txns) (ht : t ∈ txns) (key : Key) :
    s.Leads txns (s.get t key).2 txns :=
  ⟨h.rechained (rechained_get s t key), fun next k => (readBy_get h.valid t key k).steps ht next⟩

theorem Sound.scanNext (h : s.Sound txns) (ht : t ∈ txns) (c : Cursor) :
    s.Leads txns (s.scanNext t c).store txns := by
  obtain ⟨hrechained, hreads⟩ := scanUpTo_spec t (s.size + 1) h.valid c
  exact ⟨h.rechained hrechained, fun next k => (hreads k).steps ht next⟩

/-! ### Writing -/

/-- Staging a write changes neither identity nor timestamp of a transaction. -/
theorem Sound.stage (h : s.Sound (t ::ₘ txns)) (key : Key) (p : Pending V) :
    s.Sound (t.stage key p ::ₘ txns) := by
  refine ⟨h.valid, h.ordered, by simpa [Txn.stage] using h.members_eq, ?_, ?_⟩
  · intro u hu
    rcases Multiset.mem_cons.1 hu with rfl | hu
    · have hw := h.writes t (by simp)
      have hsub : ((t.writes.filter fun w => w.1 ≠ key).map Prod.fst).Nodup :=
        hw.sublist (List.filter_sublist.map Prod.fst)
      refine List.nodup_cons.2 ⟨?_, hsub⟩
      intro hmem
      obtain ⟨w, hw, hkey⟩ := List.mem_map.1 hmem
      simpa [hkey] using (List.mem_filter.1 hw).2
    · exact h.writes u (by simp [hu])
  · simpa [Txn.stage] using h.ids

theorem Sound.set (h : s.Sound (t ::ₘ txns)) (key : Key) (value : V) :
    s.Leads (t ::ₘ txns) (s.set t key value).store ((s.set t key value).txn ::ₘ txns) := by
  obtain ⟨hrechained, hcases⟩ := set_cases h.valid t key value
  have hsound := h.rechained hrechained
  -- with another key in view, a write is a write elsewhere
  have hsteps : ∀ {c : Chain V} {p : Pending V},
      (s.set t key value).txn = t.stage key p →
      (s.set t key value).store.chain = Function.update s.chain key c →
      (∀ next, Cell.Step key (s.cell (t ::ₘ txns) next key) ⟨c, t.stage key p ::ₘ txns, next⟩) →
      ∀ next k, Cell.Steps k (s.cell (t ::ₘ txns) next k)
        ((s.set t key value).store.cell ((s.set t key value).txn ::ₘ txns) next k) := by
    intro c p htxn hchain hstep next k
    unfold cell
    rw [htxn, hchain]
    by_cases hk : k = key
    · subst hk
      rw [Function.update_self]
      exact .single (hstep next)
    · rw [Function.update_of_ne hk]
      exact .single (.elsewhere hk)
  rcases hcases with ⟨e, -, htxn, hchain⟩ | ⟨c, i, -, hp, hok, htxn, hchain⟩ |
    ⟨p, c, i, -, hp, hok, htxn, hchain⟩
  · refine ⟨by rw [htxn]; exact hsound, ?_⟩
    intro next k
    unfold cell
    rw [htxn, hchain]
  · exact ⟨by rw [htxn]; exact hsound.stage key _, hsteps htxn hchain fun _ => .install hp hok⟩
  · exact ⟨by rw [htxn]; exact hsound.stage key _, hsteps htxn hchain fun _ => .supersede hp hok⟩

/-! ### Opening and ending -/

theorem Sound.openTxn (h : s.Sound txns) {id : TxnId} (hid : ∀ u ∈ txns, u.id ≠ id)
    (readTs : Timestamp) (update : Bool) :
    (s.openTxn id readTs update).1.Sound ((s.openTxn id readTs update).2 ::ₘ txns) := by
  refine ⟨h.valid, h.ordered.enter readTs, ?_, ?_, ?_⟩
  · show (s.active.enter readTs).members = _
    rw [Registry.members_enter, h.members_eq, Multiset.map_cons]
    rfl
  · intro u hu
    rcases Multiset.mem_cons.1 hu with rfl | hu
    · simp [Store.openTxn]
    · exact h.writes u hu
  · rw [Multiset.map_cons, Multiset.nodup_cons]
    refine ⟨?_, h.ids⟩
    intro hmem
    obtain ⟨u, hu, heq⟩ := Multiset.mem_map.1 hmem
    exact hid u hu heq

theorem Sound.closeTxn (h : s.Sound (t ::ₘ txns)) : (s.closeTxn t).Sound txns := by
  have hmembers := h.members_eq
  rw [Multiset.map_cons] at hmembers
  have hleave := h.ordered.members_leave (hmembers ▸ Multiset.mem_cons_self t.readTs _)
  refine ⟨h.valid, h.ordered.leave t.readTs, ?_, fun u hu => h.writes u (by simp [hu]), ?_⟩
  · rw [hmembers] at hleave
    exact ((Multiset.cons_inj_right _).1 hleave).symm
  · exact (Multiset.nodup_cons.1 (Multiset.map_cons Txn.id t txns ▸ h.ids)).2

theorem Sound.discard (h : s.Sound (t ::ₘ txns)) :
    s.Leads (t ::ₘ txns) (s.discard t) txns := by
  obtain ⟨hrechained, hchain⟩ := withdraw_spec h.valid (h.writes t (by simp))
  rw [discard_eq]
  refine ⟨(h.rechained hrechained).closeTxn, ?_⟩
  intro next key
  show Cell.Steps key ⟨_, _, _⟩ ⟨(s.withdraw t.writes).chain key, txns, next⟩
  rw [hchain key]
  cases hp : t.pending? key with
  | none => exact .single (.leave hp)
  | some p => exact .single (.abort hp)

/-- Trimming against the safepoint or below. -/
theorem Sound.trim (h : s.Sound txns) {safepoint : Timestamp} (hle : safepoint ≤ s.safepoint)
    (keys : List Key) :
    s.Leads txns (keys.foldl (fun s key => (s.trimChain key safepoint).1) s) txns := by
  obtain ⟨hrechained, hchain⟩ := foldl_trimChain_spec h.valid safepoint keys
  refine ⟨h.rechained hrechained, ?_⟩
  intro next key
  show Cell.Steps key ⟨_, _, _⟩ ⟨_, _, _⟩
  rcases hchain key with hsame | htrim
  · rw [hsame]
  · rw [htrim]
    exact .single (.trim fun t ht => hle.trans (h.safepoint_le ht))

theorem Sound.commit (h : s.Sound (t ::ₘ txns)) (ts : Timestamp) :
    s.Leads (t ::ₘ txns) (s.commit t ts).store txns := by
  rcases lt_or_ge ts t.readTs with hts | hts
  · rw [commit_of_lt hts]
    exact h.discard
  · obtain ⟨hrechained, hchain⟩ := publish_spec h.valid (h.writes t (by simp)) ts
    have hpublish : s.Leads (t ::ₘ txns) ((s.publish ts t.writes).closeTxn t) txns := by
      refine ⟨(h.rechained hrechained).closeTxn, ?_⟩
      intro next key
      show Cell.Steps key ⟨_, _, _⟩ ⟨(s.publish ts t.writes).chain key, txns, next⟩
      rw [hchain key]
      cases hp : t.pending? key with
      | none => exact .single (.leave hp)
      | some p => exact .single (.commit hp hts)
    rcases (commit_cases hts).2 with hstore | ⟨-, hstore⟩
    · rw [hstore]
      exact hpublish
    · rw [hstore]
      exact hpublish.trans (hpublish.sound.trim le_rfl _)

/-! ### The other operations -/

theorem Sound.advanceWatermark (h : s.Sound txns) (ts : Timestamp) :
    s.Leads txns (s.advanceWatermark ts) txns :=
  ⟨⟨h.valid, h.ordered, h.members_eq, h.writes, h.ids⟩, fun _ _ => .refl⟩

theorem Sound.gc (h : s.Sound txns) : s.Leads txns s.gc.1 txns := by
  unfold Store.gc
  rw [sweepKeys_fst]
  exact h.trim le_rfl _

end Store

end RadixStore
