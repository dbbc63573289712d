import Mathlib
import RadixStore.Proofs.Store.Index

/-!
# The life of a key

What happens to a key is told by its chain and the open transactions of its store. A step of the two
is everything that an action can mean for the key. In every state that such steps lead to from an
empty chain without transactions, the chain has a draft exactly when there is a claim on the key, and
the draft is what the claim says. A transaction goes on under its identity and its timestamp, and a
write that it has pending stays pending, until it ends.
-/

namespace RadixStore

variable {V : Type}

/-- The chain of a key, the open transactions of the store, and the identity that the next one
    gets, or a lower one. -/
structure Cell (V : Type) where
  chain : Chain V
  txns : Multiset (Txn V)
  next : TxnId

/-- The open transaction `u` is what has become of `t`. -/
structure Txn.Continues (t u : Txn V) (key : Key) : Prop where
  id_eq : u.id = t.id
  readTs_eq : u.readTs = t.readTs
  update_eq : u.update = t.update
  free : u.pending? key = none → t.pending? key = none

theorem Txn.Continues.refl (t : Txn V) (key : Key) : t.Continues t key :=
  ⟨rfl, rfl, rfl, fun hfree => hfree⟩

theorem Txn.Continues.trans {r t u : Txn V} {key : Key} (h : r.Continues t key)
    (h' : t.Continues u key) : r.Continues u key :=
  ⟨h'.id_eq.trans h.id_eq, h'.readTs_eq.trans h.readTs_eq, h'.update_eq.trans h.update_eq,
    fun hfree => h.free (h'.free hfree)⟩

namespace Cell

/-- What an action can mean for a key. -/
inductive Step (key : Key) : Cell V → Cell V → Prop
  /-- A transaction is opened under an identity that was never used. -/
  | enter {c : Chain V} {txns : Multiset (Txn V)} {next next' : TxnId} {t : Txn V} :
      t.writes = [] → next ≤ t.id → t.id < next' →
      Step key ⟨c, txns, next⟩ ⟨c, t ::ₘ txns, next'⟩
  /-- Identities are handed out for something else. -/
  | skip {c : Chain V} {txns : Multiset (Txn V)} {next next' : TxnId} : next ≤ next' →
      Step key ⟨c, txns, next⟩ ⟨c, txns, next'⟩
  /-- A transaction reads the chain. -/
  | read {c : Chain V} {txns : Multiset (Txn V)} {next : TxnId} {t : Txn V} : t ∈ txns →
      Step key ⟨c, txns, next⟩ ⟨(c.look t.readTs t.id).2, txns, next⟩
  /-- A transaction writes the key for the first time. -/
  | install {c c' : Chain V} {txns : Multiset (Txn V)} {next : TxnId} {t : Txn V} {value : V}
      {i : Installed} :
      t.pending? key = none → c.install t.id t.readTs value = .ok (c', i) →
      Step key ⟨c, t ::ₘ txns, next⟩ ⟨c', t.stage key ⟨i, value⟩ ::ₘ txns, next⟩
  /-- A transaction writes the key once more. -/
  | supersede {c c' : Chain V} {txns : Multiset (Txn V)} {next : TxnId} {t : Txn V} {value : V}
      {p : Pending V} {i : Installed} : t.pending? key = some p → c.supersede p.installed value = some (c', i) →
      Step key ⟨c, t ::ₘ txns, next⟩ ⟨c', t.stage key ⟨i, value⟩ ::ₘ txns, next⟩
  /-- A transaction writes another key. -/
  | elsewhere {c : Chain V} {txns : Multiset (Txn V)} {next : TxnId} {t : Txn V} {other : Key}
      {p : Pending V} : key ≠ other →
      Step key ⟨c, t ::ₘ txns, next⟩ ⟨c, t.stage other p ::ₘ txns, next⟩
  /-- A transaction that wrote the key commits. -/
  | commit {c : Chain V} {txns : Multiset (Txn V)} {next : TxnId} {t : Txn V} {p : Pending V}
      {ts : Timestamp} : t.pending? key = some p → t.readTs ≤ ts →
      Step key ⟨c, t ::ₘ txns, next⟩ ⟨c.commit p.installed ts, txns, next⟩
  /-- A transaction that wrote the key is discarded. -/
  | abort {c : Chain V} {txns : Multiset (Txn V)} {next : TxnId} {t : Txn V} {p : Pending V} :
      t.pending? key = some p → Step key ⟨c, t ::ₘ txns, next⟩ ⟨c.abort p.installed, txns, next⟩
  /-- A transaction that did not write the key ends. -/
  | leave {c : Chain V} {txns : Multiset (Txn V)} {next : TxnId} {t : Txn V} :
      t.pending? key = none → Step key ⟨c, t ::ₘ txns, next⟩ ⟨c, txns, next⟩
  /-- The chain is trimmed against a safepoint below which no open transaction reads. -/
  | trim {c : Chain V} {txns : Multiset (Txn V)} {next : TxnId} {safepoint : Timestamp} :
      (∀ t ∈ txns, safepoint ≤ t.readTs) →
      Step key ⟨c, txns, next⟩ ⟨c.pruned safepoint, txns, next⟩

/-- Any number of steps. -/
abbrev Steps (key : Key) : Cell V → Cell V → Prop :=
  Relation.ReflTransGen (Step key)

/-! ### Drafts and claims -/

/-- The chain has this draft and this history, and the claims on the key say the same. -/
structure Holds (cell : Cell V) (key : Key) (draft : Option (Draft V)) (hist : List (Version V)) :
    Prop where
  shape : cell.chain.Shape draft hist
  backed : Backed (claims cell.txns key) draft hist

/-- The chain is a history, with a draft in front exactly when there is a claim on the key. No two
    open transactions have the same identity, and none has one that is still to be handed out. -/
structure Sound (cell : Cell V) (key : Key) : Prop where
  ids : (cell.txns.map Txn.id).Nodup
  below : ∀ t ∈ cell.txns, t.id < cell.next
  holds : ∃ draft hist, cell.Holds key draft hist

variable {cell cell' : Cell V} {key : Key} {c c' : Chain V} {txns : Multiset (Txn V)} {t : Txn V}
  {draft : Option (Draft V)} {hist : List (Version V)} {p : Pending V} {i : Installed} {value : V}
  {ts : Timestamp} {next next' : TxnId} {u : Txn V}

theorem sound_empty (key : Key) : (⟨.empty, 0, next⟩ : Cell V).Sound key :=
  ⟨by simp, by simp, none, [], Chain.shape_empty, .settled rfl⟩

/-! ### What each step makes of draft and history -/

theorem Holds.enter (h : (⟨c, txns, next⟩ : Cell V).Holds key draft hist) (ht : t.writes = []) :
    (⟨c, t ::ₘ txns, next'⟩ : Cell V).Holds key draft hist := by
  refine ⟨h.shape, ?_⟩
  have hpending : t.pending? key = none := by simp [Txn.pending?, ht]
  exact claims_cons_of_none txns hpending ▸ h.backed

theorem Holds.read (h : (⟨c, txns, next⟩ : Cell V).Holds key draft hist) (ts : Timestamp)
    (id : TxnId) :
    (⟨(c.look ts id).2, txns, next⟩ : Cell V).Holds key draft (Chain.lookIn ts id hist).2 := by
  refine ⟨h.shape.look ts id, h.backed.congr ?_ ?_⟩
  · rw [← List.head?_map, Chain.map_serial_lookIn, List.head?_map]
  · rw [← List.head?_map, Chain.map_beginTs_lookIn, List.head?_map]

/-- A first write is admitted only where there is no draft. -/
theorem Holds.install (h : (⟨c, t ::ₘ txns, next⟩ : Cell V).Holds key draft hist)
    (hp : t.pending? key = none) (hok : c.install t.id t.readTs value = .ok (c', i)) :
    draft = none ∧
      (⟨c', t.stage key ⟨i, value⟩ ::ₘ txns, next⟩ : Cell V).Holds key
        (some ⟨t.id, c.nextSerial, value⟩) hist ∧
      ∀ head ∈ hist.head?, head.stamp.admits t.readTs t.id = true ∧ head.beginTs ≤ t.readTs := by
  obtain ⟨rfl, rfl, rfl, hadmits⟩ := h.shape.install t.readTs hok
  refine ⟨rfl, ⟨h.shape.redraft t.id value, ?_⟩, hadmits⟩
  have hnone : claims txns key = 0 := by
    cases h.backed with
    | settled hnone => exact claims_cons_of_none txns hp ▸ hnone
  have hclaims := claims_cons_of_some txns
    (Txn.pending?_stage_self t key ⟨installedOn c.nextSerial hist, value⟩)
  rw [hnone] at hclaims
  exact .drafted hclaims fun head hhead => (hadmits head hhead).2

/-- Another write exchanges the transaction's own draft. -/
theorem Holds.supersede (h : (⟨c, t ::ₘ txns, next⟩ : Cell V).Holds key draft hist)
    (hp : t.pending? key = some p) (hok : c.supersede p.installed value = some (c', i)) :
    (⟨c', t.stage key ⟨i, value⟩ ::ₘ txns, next⟩ : Cell V).Holds key
      (some ⟨t.id, c.nextSerial, value⟩) hist := by
  obtain ⟨serial, rfl, hinstalled, hnone, hbegin⟩ := h.backed.own hp
  have hsup := h.shape.supersede value
  rw [hinstalled, hsup] at hok
  obtain ⟨rfl, rfl⟩ := Prod.mk.inj (Option.some.inj hok)
  refine ⟨h.shape.redraft t.id value, ?_⟩
  have hclaims := claims_cons_of_some txns
    (Txn.pending?_stage_self t key ⟨installedOn c.nextSerial hist, value⟩)
  rw [hnone] at hclaims
  exact .drafted hclaims hbegin

theorem Holds.elsewhere {other : Key} (h : (⟨c, t ::ₘ txns, next⟩ : Cell V).Holds key draft hist)
    (hne : key ≠ other) : (⟨c, t.stage other p ::ₘ txns, next⟩ : Cell V).Holds key draft hist :=
  ⟨h.shape, (claims_stage_of_ne txns t p hne).symm ▸ h.backed⟩

/-- A commit turns the transaction's own draft into the newest version. -/
theorem Holds.commit (h : (⟨c, t ::ₘ txns, next⟩ : Cell V).Holds key draft hist)
    (hp : t.pending? key = some p) (hts : t.readTs ≤ ts) :
    ∃ serial, draft = some ⟨t.id, serial, p.value⟩ ∧
      (⟨c.commit p.installed ts, txns, next⟩ : Cell V).Holds key none
        ((⟨t.id, serial, p.value⟩ : Draft V).published ts :: endAt ts hist) := by
  obtain ⟨serial, rfl, hinstalled, hnone, hbegin⟩ := h.backed.own hp
  have hcommit := h.shape.commit ts
  have hpublished := h.shape.published ts fun head hhead => (hbegin head hhead).trans hts
  refine ⟨serial, rfl, ?_, .settled hnone⟩
  rw [hinstalled]
  show Chain.Shape _ none _
  rw [hcommit]
  exact hpublished

/-- What is left after an abort is the history. -/
theorem Holds.abort (h : (⟨c, t ::ₘ txns, next⟩ : Cell V).Holds key draft hist)
    (hp : t.pending? key = some p) :
    (⟨c.abort p.installed, txns, next⟩ : Cell V).Holds key none hist := by
  obtain ⟨serial, rfl, hinstalled, hnone, -⟩ := h.backed.own hp
  have habort := h.shape.abort
  refine ⟨?_, .settled hnone⟩
  rw [hinstalled]
  show Chain.Shape _ none _
  rw [habort]
  exact h.shape.undrafted

theorem Holds.leave (h : (⟨c, t ::ₘ txns, next⟩ : Cell V).Holds key draft hist)
    (hp : t.pending? key = none) : (⟨c, txns, next⟩ : Cell V).Holds key draft hist :=
  ⟨h.shape, claims_cons_of_none txns hp ▸ h.backed⟩

theorem Holds.trim (h : (⟨c, txns, next⟩ : Cell V).Holds key draft hist) (safepoint : Timestamp) :
    (⟨c.pruned safepoint, txns, next⟩ : Cell V).Holds key draft (kept safepoint hist) :=
  ⟨h.shape.pruned, h.backed.congr (by rw [head?_kept]) (by rw [head?_kept])⟩

/-! ### Soundness -/

theorem step_holds (h : cell.Holds key draft hist) (hstep : Step key cell cell') :
    ∃ draft' hist', cell'.Holds key draft' hist' := by
  cases hstep with
  | enter hwrites _ _ => exact ⟨_, _, h.enter hwrites⟩
  | skip _ => exact ⟨_, _, h.shape, h.backed⟩
  | read _ => exact ⟨_, _, h.read _ _⟩
  | install hp hok => exact ⟨_, _, (h.install hp hok).2.1⟩
  | supersede hp hok => exact ⟨_, _, h.supersede hp hok⟩
  | elsewhere hne => exact ⟨_, _, h.elsewhere hne⟩
  | commit hp hts =>
    obtain ⟨serial, -, h⟩ := h.commit hp hts
    exact ⟨_, _, h⟩
  | abort hp => exact ⟨_, _, h.abort hp⟩
  | leave hp => exact ⟨_, _, h.leave hp⟩
  | trim _ => exact ⟨_, _, h.trim _⟩

/-- The identities of the open transactions stay the same or get fewer, or a new one joins them. -/
theorem step_ids (hstep : Step key cell cell') :
    (cell'.txns.map Txn.id ≤ cell.txns.map Txn.id ∧ cell.next ≤ cell'.next) ∨
      ∃ id, cell'.txns.map Txn.id = id ::ₘ cell.txns.map Txn.id ∧ cell.next ≤ id ∧
        id < cell'.next := by
  have hless : ∀ (t : Txn V) (txns : Multiset (Txn V)),
      txns.map Txn.id ≤ (t ::ₘ txns).map Txn.id := by
    intro t txns
    exact Multiset.map_le_map (Multiset.le_cons_self txns t)
  cases hstep with
  | enter _ hle hlt => exact Or.inr ⟨_, Multiset.map_cons _ _ _, hle, hlt⟩
  | skip hle => exact Or.inl ⟨le_rfl, hle⟩
  | read _ => exact Or.inl ⟨le_rfl, le_rfl⟩
  | install _ _ => exact Or.inl ⟨by simp [Txn.stage], le_rfl⟩
  | supersede _ _ => exact Or.inl ⟨by simp [Txn.stage], le_rfl⟩
  | elsewhere _ => exact Or.inl ⟨by simp [Txn.stage], le_rfl⟩
  | commit _ _ => exact Or.inl ⟨hless _ _, le_rfl⟩
  | abort _ => exact Or.inl ⟨hless _ _, le_rfl⟩
  | leave _ => exact Or.inl ⟨hless _ _, le_rfl⟩
  | trim _ => exact Or.inl ⟨le_rfl, le_rfl⟩

theorem Sound.step (h : cell.Sound key) (hstep : Step key cell cell') : cell'.Sound key := by
  obtain ⟨draft, hist, hholds⟩ := h.holds
  refine ⟨?_, ?_, step_holds hholds hstep⟩
  · rcases step_ids hstep with ⟨hle, -⟩ | ⟨id, heq, hge, -⟩
    · exact Multiset.nodup_of_le hle h.ids
    · rw [heq, Multiset.nodup_cons]
      refine ⟨?_, h.ids⟩
      intro hmem
      obtain ⟨t, ht, rfl⟩ := Multiset.mem_map.1 hmem
      exact absurd (h.below t ht) (not_lt.2 hge)
  · intro u hu
    have hid := Multiset.mem_map_of_mem Txn.id hu
    rcases step_ids hstep with ⟨hle, hnext⟩ | ⟨id, heq, hge, hlt⟩
    · obtain ⟨t, ht, heq⟩ := Multiset.mem_map.1 (Multiset.mem_of_le hle hid)
      exact heq ▸ (h.below t ht).trans_le hnext
    · rw [heq] at hid
      rcases Multiset.mem_cons.1 hid with heq | hmem
      · exact heq ▸ hlt
      · obtain ⟨t, ht, heq⟩ := Multiset.mem_map.1 hmem
        exact heq ▸ (h.below t ht).trans (hge.trans_lt hlt)

theorem Sound.steps (h : cell.Sound key) (hsteps : Steps key cell cell') : cell'.Sound key := by
  induction hsteps with
  | refl => exact h
  | tail _ hstep ih => exact ih.step hstep

/-- An identity determines the transaction. -/
theorem Sound.eq_of_id (h : cell.Sound key) {t u : Txn V} (ht : t ∈ cell.txns)
    (hu : u ∈ cell.txns) (hid : t.id = u.id) : t = u :=
  Multiset.inj_on_of_nodup_map h.ids t ht u hu hid

/-- The other transactions have other identities. -/
theorem Sound.id_ne (h : (⟨c, t ::ₘ txns, next⟩ : Cell V).Sound key) {u : Txn V}
    (hu : u ∈ txns) : u.id ≠ t.id := by
  intro heq
  have hids := h.ids
  rw [Multiset.map_cons, Multiset.nodup_cons] at hids
  exact hids.1 (heq ▸ Multiset.mem_map_of_mem Txn.id hu)

/-! ### What a step makes of the transactions -/

theorem step_next (hstep : Step key cell cell') : cell.next ≤ cell'.next := by
  rcases step_ids hstep with ⟨-, hle⟩ | ⟨id, -, hle, hlt⟩
  · exact hle
  · exact hle.trans hlt.le

theorem steps_next (hsteps : Steps key cell cell') : cell.next ≤ cell'.next := by
  induction hsteps with
  | refl => exact le_rfl
  | tail _ hstep ih => exact ih.trans (step_next hstep)

/-- Every open transaction was open before, or has a new identity. -/
theorem step_continues (hstep : Step key cell cell') (hu : u ∈ cell'.txns) :
    cell.next ≤ u.id ∨ ∃ t ∈ cell.txns, t.Continues u key := by
  cases hstep with
  | enter _ hle _ =>
    rcases Multiset.mem_cons.1 hu with rfl | hu
    · exact Or.inl hle
    · exact Or.inr ⟨u, hu, .refl u key⟩
  | skip _ => exact Or.inr ⟨u, hu, .refl u key⟩
  | read _ => exact Or.inr ⟨u, hu, .refl u key⟩
  | @install c c' txns next t value i hp _ =>
    rcases Multiset.mem_cons.1 hu with rfl | hu
    · exact Or.inr ⟨t, by simp, rfl, rfl, rfl, fun _ => hp⟩
    · exact Or.inr ⟨u, by simp [hu], .refl u key⟩
  | @supersede c c' txns next t value p i _ _ =>
    rcases Multiset.mem_cons.1 hu with rfl | hu
    · exact Or.inr ⟨t, by simp, rfl, rfl, rfl, fun hfree => by simp at hfree⟩
    · exact Or.inr ⟨u, by simp [hu], .refl u key⟩
  | @elsewhere c txns next t other p hne =>
    rcases Multiset.mem_cons.1 hu with rfl | hu
    · exact Or.inr ⟨t, by simp, rfl, rfl, rfl,
        fun hfree => (Txn.pending?_stage_of_ne t p hne).symm.trans hfree⟩
    · exact Or.inr ⟨u, by simp [hu], .refl u key⟩
  | commit _ _ => exact Or.inr ⟨u, Multiset.mem_cons_of_mem hu, .refl u key⟩
  | abort _ => exact Or.inr ⟨u, Multiset.mem_cons_of_mem hu, .refl u key⟩
  | leave _ => exact Or.inr ⟨u, Multiset.mem_cons_of_mem hu, .refl u key⟩
  | trim _ => exact Or.inr ⟨u, hu, .refl u key⟩

theorem steps_continues (hsteps : Steps key cell cell') (hu : u ∈ cell'.txns)
    (hid : u.id < cell.next) : ∃ t ∈ cell.txns, t.Continues u key := by
  induction hsteps generalizing u with
  | refl => exact ⟨u, hu, .refl u key⟩
  | tail hsteps hstep ih =>
    rcases step_continues hstep hu with hnew | ⟨t, ht, hcontinues⟩
    · exact absurd (hid.trans_le (steps_next hsteps)) (not_lt.2 hnew)
    · obtain ⟨r, hr, hearlier⟩ := ih ht (hcontinues.id_eq ▸ hid)
      exact ⟨r, hr, hearlier.trans hcontinues⟩

/-- Whoever is still open under the identity is the same transaction. -/
theorem Sound.continues (h : cell.Sound key) (hsteps : Steps key cell cell') (ht : t ∈ cell.txns)
    (hu : u ∈ cell'.txns) (hid : u.id = t.id) : t.Continues u key := by
  obtain ⟨r, hr, hcontinues⟩ := steps_continues hsteps hu (hid ▸ h.below t ht)
  have hrt := h.eq_of_id hr ht (hcontinues.id_eq.symm.trans hid)
  exact hrt ▸ hcontinues

end Cell

end RadixStore
