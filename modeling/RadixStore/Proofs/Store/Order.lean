import Mathlib
import RadixStore.Proofs.Chain.Timeline
import RadixStore.Proofs.Store.System

/-!
# Chains in order

In every reachable system the chain of a key and the open transactions of its store tell the same
story. At most one transaction has a write of the key pending, and then the pending version is the
newest one and is held by the transaction, as is the version that it is to supersede; nothing else is
held. Behind it stand the committed versions without gaps between them. So the exchange of the newest
version, with which a transaction writes once more or takes its write back, never fails.
-/

namespace RadixStore

variable {V : Type}

/-- The open transactions that have a write of `key` pending. -/
def writers (txns : Multiset (Txn V)) (key : Key) : Multiset (Txn V) :=
  txns.filter fun t => (t.pending? key).isSome

theorem card_writers (txns : Multiset (Txn V)) (key : Key) :
    (writers txns key).card = (claims txns key).card := by
  induction txns using Multiset.induction with
  | empty => rfl
  | cons t txns ih =>
    cases hp : t.pending? key with
    | none =>
      rw [claims_cons_of_none txns hp, writers, Multiset.filter_cons_of_neg _ (by simp [hp])]
      exact ih
    | some p =>
      rw [claims_cons_of_some txns hp, writers, Multiset.filter_cons_of_pos _ (by simp [hp]),
        Multiset.card_cons, Multiset.card_cons]
      exact congrArg (· + 1) ih

/-- The pending write `p` of the transaction `owner` is the newest version of the chain, and the
    transaction holds it and the version that it is to supersede, and no other version is held. -/
structure Chain.Carries (c : Chain V) (owner : TxnId) (p : Pending V) : Prop where
  node : ∀ v ∈ c.versions.head?, v.serial = p.installed.node ∧ v.committed = false ∧
    v.holder = some owner ∧ v.value = p.value
  prior : p.installed.prior = c.versions.tail.head?.map Version.serial
  prior_held : ∀ v ∈ c.versions.tail.head?, v.holder = some owner
  older_released : ∀ v ∈ c.versions.tail.tail, v.holder = none

/-- The chain of `key` is in order when these transactions are open. -/
structure Chain.InOrder (c : Chain V) (txns : Multiset (Txn V)) (key : Key) : Prop where
  /-- A serial number tells a version from the others. -/
  serials : (c.versions.map Version.serial).Nodup
  /-- Only the newest version may be pending. -/
  pending_first : ∀ v ∈ c.versions.tail, v.committed = true
  /-- It is pending exactly when one transaction has a write of the key pending. -/
  pending_iff : (∃ v ∈ c.versions.head?, v.committed = false) ↔ (writers txns key).card = 1
  /-- Such a write is the newest version. -/
  carried : ∀ t ∈ txns, ∀ p, t.pending? key = some p →
    (writers txns key).card = 1 ∧ c.Carries t.id p
  /-- Without such a write nobody holds a version. -/
  released : writers txns key = 0 → ∀ v ∈ c.versions, v.holder = none
  /-- No committed version begins before an older one. -/
  begins : c.timeline.Pairwise fun newer older => older.beginTs ≤ newer.beginTs
  /-- Every committed version ends where the next newer one begins. -/
  ends : c.timeline.IsChain fun newer older => older.endTs = newer.beginTs
  /-- The newest committed version does not end. -/
  current : ∀ v ∈ c.timeline.head?, v.endTs = infinity

/-! ### Chains of a history and perhaps a draft -/

namespace Chain

variable {c : Chain V} {draft : Option (Draft V)} {d : Draft V} {hist : List (Version V)}

theorem Shape.carries (h : c.Shape (some d) hist) :
    c.Carries d.owner ⟨installedOn d.serial hist, d.value⟩ := by
  have hversions : c.versions = .pending d.serial (some d.owner) d.value :: hold d.owner hist :=
    h.versions_eq
  constructor
  · intro v hv
    rw [hversions] at hv
    cases hv
    exact ⟨rfl, rfl, rfl, rfl⟩
  · rw [hversions, List.tail_cons, ← List.head?_map, map_serial_hold, List.head?_map]
    rfl
  · intro v hv
    rw [hversions] at hv
    cases hist with
    | nil => cases hv
    | cons head older =>
      cases hv
      rfl
  · intro v hv
    rw [hversions] at hv
    cases hist with
    | nil => cases hv
    | cons head older => exact h.history.released (List.mem_cons_of_mem _ hv)

theorem Shape.committed_of_tail (h : c.Shape draft hist) :
    ∀ v ∈ c.versions.tail, v.committed = true := by
  intro v hv
  rw [h.versions_eq] at hv
  cases draft with
  | none => exact h.history.committed (List.mem_of_mem_tail hv)
  | some d => exact h.history.committed_hold v hv

/-- There is a draft exactly when the newest version is pending. -/
theorem Shape.isSome_draft_iff (h : c.Shape draft hist) :
    (∃ v ∈ c.versions.head?, v.committed = false) ↔ draft.isSome = true := by
  rw [h.versions_eq]
  cases draft with
  | some d => exact iff_of_true ⟨_, rfl, rfl⟩ rfl
  | none =>
    refine iff_of_false ?_ (by simp)
    rintro ⟨v, hv, hpending⟩
    have hcommitted := h.history.committed (List.mem_of_mem_head? hv)
    rw [hpending] at hcommitted
    cases hcommitted

end Chain

/-! ### Cells in order -/

theorem Backed.card_eq {all : Multiset (Claim V)} {draft : Option (Draft V)}
    {hist : List (Version V)} (h : Backed all draft hist) :
    all.card = if draft.isSome then 1 else 0 := by
  cases h with
  | settled hnone =>
    rw [hnone]
    rfl
  | drafted hone _ =>
    rw [hone]
    rfl

namespace Cell

variable {c : Chain V} {txns : Multiset (Txn V)} {next : TxnId} {key : Key} {t : Txn V}
  {draft : Option (Draft V)} {hist : List (Version V)} {p : Pending V}

theorem Holds.card_writers (h : (⟨c, txns, next⟩ : Cell V).Holds key draft hist) :
    (writers txns key).card = if draft.isSome then 1 else 0 :=
  (RadixStore.card_writers txns key).trans h.backed.card_eq

theorem Holds.drafted (h : (⟨c, txns, next⟩ : Cell V).Holds key draft hist) (ht : t ∈ txns)
    (hp : t.pending? key = some p) : ∃ serial, draft = some ⟨t.id, serial, p.value⟩ ∧
      p.installed = installedOn serial hist := by
  obtain ⟨rest, rfl⟩ := Multiset.exists_cons_of_mem ht
  obtain ⟨serial, hdraft, hinstalled, -⟩ := h.backed.own hp
  exact ⟨serial, hdraft, hinstalled⟩

theorem Holds.carries (h : (⟨c, txns, next⟩ : Cell V).Holds key draft hist) (ht : t ∈ txns)
    (hp : t.pending? key = some p) : c.Carries t.id p := by
  obtain ⟨serial, rfl, hinstalled⟩ := h.drafted ht hp
  obtain ⟨installed, value⟩ := p
  have hinstalled : installed = installedOn serial hist := hinstalled
  subst hinstalled
  exact h.shape.carries

theorem Holds.exists_supersede (h : (⟨c, txns, next⟩ : Cell V).Holds key draft hist) (ht : t ∈ txns)
    (hp : t.pending? key = some p) (value : V) : ∃ r, c.supersede p.installed value = some r := by
  obtain ⟨serial, rfl, hinstalled⟩ := h.drafted ht hp
  rw [hinstalled]
  exact ⟨_, h.shape.supersede value⟩

theorem Holds.exists_abort (h : (⟨c, txns, next⟩ : Cell V).Holds key draft hist) (ht : t ∈ txns)
    (hp : t.pending? key = some p) : ∃ r, c.abort? p.installed = some r := by
  obtain ⟨serial, rfl, hinstalled⟩ := h.drafted ht hp
  rw [hinstalled]
  exact ⟨_, h.shape.abort?⟩

theorem Holds.versions_ne_nil (h : (⟨c, txns, next⟩ : Cell V).Holds key draft hist) (ht : t ∈ txns)
    (hp : t.pending? key = some p) : c.versions ≠ [] := by
  obtain ⟨serial, rfl, -⟩ := h.drafted ht hp
  rw [h.shape.versions_eq]
  exact List.cons_ne_nil _ _

theorem Holds.inOrder (h : (⟨c, txns, next⟩ : Cell V).Holds key draft hist) :
    c.InOrder txns key where
  serials := h.shape.nodup_serials
  pending_first := h.shape.committed_of_tail
  pending_iff := by
    rw [h.shape.isSome_draft_iff, h.card_writers]
    cases draft <;> simp
  carried t ht p hp := by
    refine ⟨?_, h.carries ht hp⟩
    obtain ⟨serial, rfl, -⟩ := h.drafted ht hp
    exact h.card_writers
  released hnone v hv := by
    have hcard := h.card_writers
    rw [hnone] at hcard
    cases draft with
    | some d => cases hcard
    | none =>
      rw [h.shape.versions_eq] at hv
      exact h.shape.history.released hv
  begins := h.shape.begins_descend
  ends := h.shape.ends_adjoin
  current := h.shape.endTs_of_head

end Cell

/-! ### Exchanges of the newest version -/

namespace Store

variable {s : Store V} {t : Txn V} {key : Key}

/-- A chain with a version is one of a key that was written. -/
theorem exists_chain?_of_ne_nil (h : (s.chain key).versions ≠ []) :
    s.chain? key = some (s.chain key) := by
  unfold chain at h ⊢
  cases hc : s.chain? key with
  | some c => rfl
  | none =>
    rw [hc] at h
    exact absurd rfl h

/-- Pending writes that are withdrawn before it leave the chain of a pending write alone. -/
theorem chain_withdraw_of_append (hs : s.index.Valid) {done rest : List (Key × Pending V)}
    {w : Key × Pending V} (hw : ((done ++ w :: rest).map Prod.fst).Nodup) :
    (s.withdraw done).chain w.1 = s.chain w.1 := by
  rw [List.map_append, List.map_cons] at hw
  have hnot : w.1 ∉ done.map Prod.fst := by
    intro hmem
    exact (List.nodup_append.1 hw).2.2 _ hmem _ (by simp) rfl
  have hnone : Bindings.find done w.1 = none := Bindings.find_eq_none_iff.2 hnot
  have hdone := (chain_foldl_updateChain (f := fun p c => c.abort p.installed) (fun _ => rfl) hs
    (List.nodup_append.1 hw).1).2 w.1
  rw [hnone] at hdone
  exact hdone

/-- Writing once more takes effect whenever the newest version can be exchanged. -/
theorem verdict_set_of_supersede {c : Chain V} {p : Pending V} {value : V} {r : Chain V × Installed}
    (hupdate : t.update = true) (hp : t.pending? key = some p) (hc : s.chain? key = some c)
    (hr : c.supersede p.installed value = some r) : (s.set t key value).verdict = .ok () := by
  simp [Store.set, hupdate, hp, setAgain, hc, hr]

end Store

/-! ### Systems in order -/

namespace System

variable {sys : System V} {i : Nat} {s : Store V}

/-- In every reachable system the chain of every key is in order with the open transactions of its
    store. So a transaction that has a write of a key pending always finds it in front when it writes
    the key once more, and when it takes its writes back, one after the other. -/
theorem Reachable.chains_in_order (h : sys.Reachable) (hs : sys.stores[i]? = some s) :
    (∀ key, (s.chain key).InOrder (openOn sys.txns i) key) ∧
    ∀ t ∈ openOn sys.txns i,
      (∀ key p value, t.pending? key = some p →
        ∃ c r, s.chain? key = some c ∧ c.supersede p.installed value = some r) ∧
      (∀ key value, t.update = true → (t.pending? key).isSome →
        (s.set t key value).verdict = .ok ()) ∧
      ∀ done w rest, t.writes = done ++ w :: rest →
        ∃ c r, (s.withdraw done).chain? w.1 = some c ∧ c.abort? w.2.installed = some r := by
  have hholds := h.holds hs
  have hexchange : ∀ t ∈ openOn sys.txns i, ∀ key p value, t.pending? key = some p →
      ∃ c r, s.chain? key = some c ∧ c.supersede p.installed value = some r := by
    intro t ht key p value hp
    obtain ⟨draft, hist, hkey⟩ := hholds key
    obtain ⟨r, hr⟩ := hkey.exists_supersede ht hp value
    exact ⟨_, r, Store.exists_chain?_of_ne_nil (hkey.versions_ne_nil ht hp), hr⟩
  refine ⟨?_, ?_⟩
  · intro key
    obtain ⟨draft, hist, hkey⟩ := hholds key
    exact hkey.inOrder
  · intro t ht
    refine ⟨hexchange t ht, ?_, ?_⟩
    · intro key value hupdate hsome
      obtain ⟨p, hp⟩ := Option.isSome_iff_exists.1 hsome
      obtain ⟨c, r, hc, hr⟩ := hexchange t ht key p value hp
      exact Store.verdict_set_of_supersede hupdate hp hc hr
    · intro done w rest hwrites
      have hsound := h.sound.stores i s hs
      have hnodup := hsound.writes t ht
      have hp := t.pending?_of_mem hnodup (w := w) (by simp [hwrites])
      rw [hwrites] at hnodup
      have hsame := Store.chain_withdraw_of_append hsound.valid hnodup
      obtain ⟨draft, hist, hkey⟩ := hholds w.1
      obtain ⟨r, hr⟩ := hkey.exists_abort ht hp
      have hne := hkey.versions_ne_nil ht hp
      rw [← hsame] at hr hne
      exact ⟨_, r, Store.exists_chain?_of_ne_nil hne, hr⟩

/-- One transaction has committed a version of a key and another one has written the key since. -/
theorem chains_in_order_amid_write : ∃ (sys : System Nat) (s : Store Nat),
    sys = (start [.standard] false).exec [.openTxn 0 "w" 1 true, .set "w" [7] 5, .commit "w" 2,
      .openTxn 0 "w" 3 true, .set "w" [7] 6] ∧
    sys.stores[0]? = some s ∧ (s.chain [7]).InOrder (openOn sys.txns 0) [7] ∧
    ∃ c r, s.chain? [7] = some c ∧ c.supersede ⟨1, some 0⟩ 8 = some r := by
  have hreachable : ((start [.standard] false : System Nat).exec [.openTxn 0 "w" 1 true,
      .set "w" [7] 5, .commit "w" 2, .openTxn 0 "w" 3 true, .set "w" [7] 6]).Reachable :=
    ⟨_, _, _, rfl⟩
  obtain ⟨s, hs⟩ := Option.isSome_iff_exists.1 (show ((start [.standard] false : System Nat).exec
    [.openTxn 0 "w" 1 true, .set "w" [7] 5, .commit "w" 2, .openTxn 0 "w" 3 true,
      .set "w" [7] 6]).stores[0]?.isSome = true by decide +kernel)
  obtain ⟨horder, hexchange⟩ := hreachable.chains_in_order hs
  have hopen := hexchange ⟨2, 3, true, [([7], ⟨⟨1, some 0⟩, 6⟩)]⟩ (by decide +kernel)
  exact ⟨_, s, rfl, hs, horder [7], hopen.1 [7] ⟨⟨1, some 0⟩, 6⟩ 8 (by decide +kernel)⟩

end System

end RadixStore
