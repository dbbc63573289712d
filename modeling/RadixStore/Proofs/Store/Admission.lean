import Mathlib
import RadixStore.Proofs.Store.Order
import RadixStore.Proofs.Store.Places
import RadixStore.Proofs.Store.Reads
import RadixStore.Proofs.Tree.LockWords

/-!
# Which writes are admitted

A write is refused to a transaction that was opened for reading only, or while another one has the key
written. Otherwise it is admitted unless the newest version begins too late or was read too late by
somebody in the run so far. A write that is refused changes nothing. One that takes effect changes the
front of one chain and what the transaction has pending, and makes sure that the key is in the index.
-/

namespace RadixStore

variable {V : Type}

/-! ### What stands against a write -/

namespace Cell

variable {cell : Cell V} {key : Key} {c : Chain V} {txns : Multiset (Txn V)} {t : Txn V}
  {next : TxnId} {read : Serial → Txn V → Prop}

/-- The version in front is pending, and another open transaction holds it. -/
def Contended (cell : Cell V) (t : Txn V) : Prop :=
  ∃ v ∈ cell.chain.versions.head?, v.committed = false ∧
    ∃ u ∈ cell.txns, u.id ≠ t.id ∧ v.holder = some u.id

/-- The transaction has the key written already, or there is no version, or the version in front is
    committed, does not begin after the transaction reads, and was read by nobody then or later but by
    the transaction itself. -/
def Admissible (cell : Cell V) (key : Key) (t : Txn V) (read : Serial → Txn V → Prop) : Prop :=
  (t.pending? key).isSome ∨ cell.chain.versions = [] ∨
    ∃ v, cell.chain.versions.head? = some v ∧ v.committed = true ∧ v.beginTs ≤ t.readTs ∧
      ∀ u, read v.serial u → u.readTs < t.readTs ∨ u.readTs = t.readTs ∧ u.id = t.id

/-- A draft is that of an open transaction. -/
theorem Holds.exists_owner {d : Draft V} {hist : List (Version V)}
    (h : cell.Holds key (some d) hist) :
    ∃ u ∈ cell.txns, u.id = d.owner ∧ (u.pending? key).isSome := by
  cases h.backed with
  | @drafted _ _ readTs hone _ =>
    have hmem : (⟨d.owner, readTs, ⟨installedOn d.serial hist, d.value⟩⟩ : Claim V) ∈
        claims cell.txns key := by
      rw [hone]
      exact Multiset.mem_singleton_self _
    obtain ⟨u, hu, hclaim⟩ := (Multiset.mem_filterMap _ _).1 hmem
    obtain ⟨q, hq, hclaim⟩ := Option.map_eq_some_iff.1 hclaim
    exact ⟨u, hu, congrArg Claim.owner hclaim, by rw [hq]; rfl⟩

/-- For a transaction that has not written the key, a draft is that of another one. -/
theorem Sound.contended_of_draft (h : (⟨c, t ::ₘ txns, next⟩ : Cell V).Sound key)
    (hfree : t.pending? key = none) {d : Draft V} {hist : List (Version V)}
    (hholds : (⟨c, t ::ₘ txns, next⟩ : Cell V).Holds key (some d) hist) :
    (⟨c, t ::ₘ txns, next⟩ : Cell V).Contended t := by
  have hversions : c.versions = layout (some d) hist := hholds.shape.versions_eq
  obtain ⟨u, hu, howner, hp⟩ := hholds.exists_owner
  have hne : u.id ≠ t.id := by
    rcases Multiset.mem_cons.1 hu with rfl | hu
    · rw [hfree] at hp
      cases hp
    · exact h.id_ne hu
  refine ⟨.pending d.serial (some d.owner) d.value, ?_, rfl, u, hu, hne,
    congrArg some howner.symm⟩
  show _ ∈ c.versions.head?
  rw [hversions]
  rfl

/-- A first write comes to one of three things. -/
theorem Sound.install_cases (h : (⟨c, t ::ₘ txns, next⟩ : Cell V).Sound key)
    (hfree : t.pending? key = none) (value : V)
    (hread : ∀ v ∈ c.versions, v.stamp.admits t.readTs t.id = true ↔
      ∀ u, read v.serial u → u.readTs < t.readTs ∨ u.readTs = t.readTs ∧ u.id = t.id) :
    (⟨c, t ::ₘ txns, next⟩ : Cell V).Contended t ∧
        c.install t.id t.readTs value = .error .contended ∨
      ¬ (⟨c, t ::ₘ txns, next⟩ : Cell V).Contended t ∧
        ((⟨c, t ::ₘ txns, next⟩ : Cell V).Admissible key t read ∧
            (∃ r, c.install t.id t.readTs value = .ok r) ∨
          ¬ (⟨c, t ::ₘ txns, next⟩ : Cell V).Admissible key t read ∧
            c.install t.id t.readTs value = .error .conflict) := by
  obtain ⟨draft, hist, hholds⟩ := h.holds
  have hversions : c.versions = layout draft hist := hholds.shape.versions_eq
  cases draft with
  | some d =>
    refine Or.inl ⟨h.contended_of_draft hfree hholds, ?_⟩
    rw [Chain.install_eq, hversions]
    rfl
  | none =>
    have hversions : c.versions = hist := hversions
    unfold Contended Admissible
    rw [Chain.install_eq]
    dsimp only
    cases hist with
    | nil =>
      refine Or.inr ⟨?_, Or.inl ⟨Or.inr (Or.inl hversions), ?_⟩⟩
      · rintro ⟨v, hv, -⟩
        rw [hversions] at hv
        cases hv
      · rw [hversions]
        exact ⟨_, rfl⟩
    | cons head older =>
      have hcommitted : head.committed = true := hholds.shape.history.committed (by simp)
      have hreleased : head.holder = none := hholds.shape.history.released (by simp)
      have hstamp := hread head (by simp [hversions])
      refine Or.inr ⟨?_, ?_⟩
      · rintro ⟨v, hv, hpending, -⟩
        rw [hversions] at hv
        obtain rfl := Option.some_inj.1 hv
        rw [hcommitted] at hpending
        cases hpending
      · have hadmits : (head.stamp.admits t.readTs t.id && decide (head.beginTs ≤ t.readTs)) = true ↔
            head.beginTs ≤ t.readTs ∧
              ∀ u, read head.serial u → u.readTs < t.readTs ∨ u.readTs = t.readTs ∧ u.id = t.id := by
          rw [Bool.and_eq_true, decide_eq_true_eq, hstamp, and_comm]
        rw [hversions]
        simp only [hfree, hreleased, hcommitted, Option.isSome_none, Bool.false_eq_true, if_false,
          List.head?_cons, Option.some.injEq, exists_eq_left', false_or, true_and, reduceCtorEq,
          ← hadmits]
        cases head.stamp.admits t.readTs t.id && decide (head.beginTs ≤ t.readTs) with
        | true => exact Or.inl ⟨rfl, _, rfl⟩
        | false => exact Or.inr ⟨Bool.false_ne_true, rfl⟩

end Cell

/-! ### Verdicts -/

namespace Store

variable {s : Store V} {t : Txn V} {txns : Multiset (Txn V)} {key : Key} {value : V} {next : TxnId}
  {read : Serial → Txn V → Prop}

/-- The verdict on a first write is that of the chain. -/
theorem verdict_set_of_free (hs : s.index.Valid) (hupdate : t.update = true)
    (hfree : t.pending? key = none) (value : V) :
    (s.set t key value).verdict = ((s.chain key).install t.id t.readTs value).map fun _ => () := by
  obtain ⟨hvalue, -⟩ := chain_getOrInsert hs key
  unfold Store.set setFirst
  rw [if_pos hupdate, hfree]
  dsimp only
  rw [hvalue]
  cases (s.chain key).install t.id t.readTs value with
  | ok r => rfl
  | error e => rfl

/-- Every write comes to one of four things. -/
theorem verdict_set_cases (hs : s.index.Valid) (h : (s.cell (t ::ₘ txns) next key).Sound key)
    (hread : ∀ v ∈ (s.chain key).versions, v.stamp.admits t.readTs t.id = true ↔
      ∀ u, read v.serial u → u.readTs < t.readTs ∨ u.readTs = t.readTs ∧ u.id = t.id) (value : V) :
    t.update = false ∧ (s.set t key value).verdict = .error .readOnly ∨
    t.update = true ∧ (s.cell (t ::ₘ txns) next key).Contended t ∧
      (s.set t key value).verdict = .error .contended ∨
    t.update = true ∧ ¬ (s.cell (t ::ₘ txns) next key).Contended t ∧
      (s.cell (t ::ₘ txns) next key).Admissible key t read ∧ (s.set t key value).verdict = .ok () ∨
    t.update = true ∧ ¬ (s.cell (t ::ₘ txns) next key).Contended t ∧
      ¬ (s.cell (t ::ₘ txns) next key).Admissible key t read ∧
      (s.set t key value).verdict = .error .conflict := by
  cases hupdate : t.update with
  | false =>
    refine Or.inl ⟨rfl, ?_⟩
    unfold Store.set
    rw [hupdate]
    rfl
  | true =>
    refine Or.inr ?_
    simp only [true_and]
    cases hp : t.pending? key with
    | some p =>
      obtain ⟨draft, hist, hholds⟩ := h.holds
      have hmem := Multiset.mem_cons_self t txns
      obtain ⟨r, hr⟩ := hholds.exists_supersede hmem hp value
      have hc := exists_chain?_of_ne_nil (hholds.versions_ne_nil hmem hp)
      have hown : t.id ∈ (s.chain key).versions.head?.bind Version.holder := by
        obtain ⟨serial, rfl, -⟩ := hholds.drafted hmem hp
        have hversions : (s.chain key).versions = _ := hholds.shape.versions_eq
        rw [hversions]
        rfl
      refine Or.inr (Or.inl ⟨?_, Or.inl (by simp [hp]), verdict_set_of_supersede hupdate hp hc hr⟩)
      rintro ⟨v, hv, -, u, -, hne, hholder⟩
      have hv : (s.chain key).versions.head? = some v := hv
      rw [hv, Option.bind_some, hholder] at hown
      exact hne (Option.some_inj.1 hown)
    | none =>
      rw [verdict_set_of_free hs hupdate hp value]
      rcases h.install_cases hp value hread with ⟨hcontended, herror⟩ |
        ⟨hfree, ⟨hadmissible, r, hok⟩ | ⟨hconflict, herror⟩⟩
      · refine Or.inl ⟨hcontended, ?_⟩
        rw [herror]
        rfl
      · refine Or.inr (Or.inl ⟨hfree, hadmissible, ?_⟩)
        rw [hok]
        rfl
      · refine Or.inr (Or.inr ⟨hfree, hconflict, ?_⟩)
        rw [herror]
        rfl

/-! ### Writes that are refused -/

/-- A write that is refused leaves the store and the transaction exactly as they were. -/
theorem set_of_error (hs : s.index.Valid) {e : Refusal}
    (h : (s.set t key value).verdict = .error e) :
    (s.set t key value).store = s ∧ (s.set t key value).txn = t := by
  unfold Store.set at h ⊢
  split at h
  · rename_i hupdate
    rw [if_pos hupdate]
    cases hp : t.pending? key with
    | some p =>
      rw [hp] at h
      dsimp only at h ⊢
      unfold setAgain at h ⊢
      split at h
      · exact ⟨rfl, rfl⟩
      · cases h
    | none =>
      rw [hp] at h
      dsimp only at h ⊢
      unfold setFirst at h ⊢
      dsimp only at h ⊢
      cases hget : s.index.get? key with
      | some c =>
        rw [Tree.getOrInsert_of_some hget] at h ⊢
        dsimp only at h ⊢
        split at h
        · exact ⟨rfl, rfl⟩
        · cases h
      | none =>
        -- the first write of a new key is never refused
        obtain ⟨hvalue, -⟩ := chain_getOrInsert hs key
        have hempty : s.chain key = .empty := by
          unfold chain chain?
          rw [hget]
          rfl
        rw [hvalue, hempty] at h
        cases h
  · rename_i hupdate
    rw [if_neg hupdate]
    exact ⟨rfl, rfl⟩

/-! ### Writes that take effect -/

/-- The pending version of a transaction comes in front of these: in the place of the one that it had
    there, or before all others, of which it holds the newest one from then on. -/
def behind (t : Txn V) (key : Key) (c : Chain V) : List (Version V) :=
  if (t.pending? key).isSome then c.versions.tail else hold t.id c.versions

/-- By writing `value` to `key` with effect, `t` becomes `t'` and the store `s` becomes `s'`. -/
structure Writes (s : Store V) (t : Txn V) (key : Key) (value : V) (s' : Store V) (t' : Txn V) :
    Prop where
  /-- The front of one chain changes. -/
  chains : s'.chain? = Function.update s.chain? key
    (some ⟨.pending (s.chain key).nextSerial (some t.id) value :: behind t key (s.chain key),
      (s.chain key).nextSerial + 1⟩)
  /-- The keys and the nodes of the index stay what they are, -/
  kept : (s.chain? key).isSome → s'.places = s.places
  /-- but that a new key is entered. -/
  entered : s.chain? key = none →
    s'.places = (s.places.getOrInsert key fun _ => ()).written.tree
  active : s'.active = s.active
  watermark : s'.watermark = s.watermark
  config : s'.config = s.config
  /-- The write is pending, in place of an earlier one of the key. -/
  staged : t' = t.stage key
    ⟨installedOn (s.chain key).nextSerial (behind t key (s.chain key)), value⟩
  /-- The transaction sees it. -/
  seen : (s'.get t' key).1 = .ok value

theorem get_stage (s : Store V) (t : Txn V) (key : Key) (p : Pending V) :
    (s.get (t.stage key p) key).1 = .ok p.value := by
  rw [get_of_pending (Txn.pending?_stage_self t key p)]

theorem installedOn_hold (serial : Serial) (owner : TxnId) (hist : List (Version V)) :
    installedOn serial (hold owner hist) = installedOn serial hist := by
  cases hist <;> rfl

section Effect

variable {draft : Option (Draft V)} {hist : List (Version V)} {p : Pending V}

theorem writes_setAgain (hs : s.index.Valid) (h : (s.cell (t ::ₘ txns) next key).Holds key draft hist)
    (hp : t.pending? key = some p) (value : V) :
    s.Writes t key value (s.setAgain t key p value).store (s.setAgain t key p value).txn := by
  have hmem := Multiset.mem_cons_self t txns
  have hc := exists_chain?_of_ne_nil (h.versions_ne_nil hmem hp)
  obtain ⟨serial, rfl, hinstalled⟩ := h.drafted hmem hp
  have hversions : (s.chain key).versions = _ := h.shape.versions_eq
  have hbehind : behind t key (s.chain key) = hold t.id hist := by
    rw [behind, hp, hversions]
    rfl
  have hsup : (s.chain key).supersede p.installed value = _ :=
    hinstalled ▸ h.shape.supersede value
  unfold setAgain
  rw [hc, Option.bind_some, hsup]
  refine ⟨?_, fun _ => (keeps_updateChain s key _ hs).2, ?_, rfl, rfl, rfl, ?_,
    get_stage _ t key _⟩
  · have hget : s.index.get? key = some (s.chain key) := hc
    refine hs.get?_update.trans ?_
    rw [hbehind, hget]
    rfl
  · intro hnone
    rw [hc] at hnone
    cases hnone
  · rw [hbehind, installedOn_hold]
    rfl

theorem writes_setFirst (hs : s.index.Valid) (h : (s.cell (t ::ₘ txns) next key).Holds key draft hist)
    (hp : t.pending? key = none) (hok : (s.setFirst t key value).verdict = .ok ()) :
    s.Writes t key value (s.setFirst t key value).store (s.setFirst t key value).txn := by
  obtain ⟨hvalue, hrechained, hget⟩ := chain_getOrInsert hs key
  have hvalid := hrechained.valid hs
  have hmap := (Tree.getOrInsert_map (fun _ => ()) s.index key (fun _ => Chain.empty)
    (fun _ => ()) rfl).2
  unfold setFirst at hok ⊢
  dsimp only at hok ⊢
  rw [hvalue] at hok ⊢
  cases hinstall : (s.chain key).install t.id t.readTs value with
  | error e =>
    rw [hinstall] at hok
    cases hok
  | ok r =>
    obtain ⟨c, installed⟩ := r
    obtain ⟨rfl, rfl, rfl, -⟩ := h.shape.install t.readTs hinstall
    have hversions : (s.chain key).versions = hist := h.shape.versions_eq
    have hbehind : behind t key (s.chain key) = hold t.id hist := by
      rw [behind, hp, hversions]
      rfl
    refine ⟨?_, ?_, ?_, rfl, rfl, rfl, ?_, get_stage _ t key _⟩
    · rw [hbehind]
      funext k
      refine (congrFun hvalid.get?_update k).trans ?_
      by_cases hk : k = key
      · subst hk
        rw [Function.update_self, Function.update_self]
        show Option.map _ (Tree.get? _ k) = _
        rw [hget k, if_pos rfl]
        rfl
      · rw [Function.update_of_ne hk, Function.update_of_ne hk]
        show Tree.get? _ k = _
        rw [hget k, if_neg hk]
    · intro hsome
      obtain ⟨c, hc⟩ := Option.isSome_iff_exists.1 hsome
      have hfound : s.index.get? key = some c := hc
      refine (keeps_updateChain _ key _ hvalid).2.trans ?_
      unfold places
      rw [Tree.getOrInsert_of_some hfound]
    · intro _
      exact (keeps_updateChain _ key _ hvalid).2.trans (congrArg Written.tree hmap).symm
    · rw [hbehind, installedOn_hold]
      rfl

theorem writes_of_ok (hs : s.index.Valid) (h : (s.cell (t ::ₘ txns) next key).Holds key draft hist)
    (hok : (s.set t key value).verdict = .ok ()) :
    s.Writes t key value (s.set t key value).store (s.set t key value).txn := by
  unfold Store.set at hok ⊢
  split at hok
  · rename_i hupdate
    rw [if_pos hupdate]
    cases hp : t.pending? key with
    | some p => exact writes_setAgain hs h hp value
    | none =>
      rw [hp] at hok
      exact writes_setFirst hs h hp hok
  · cases hok

end Effect

end Store

/-! ### Writes in a run -/

namespace System

variable {sys : System V} {name : String} {i : Nat} {t t' : Txn V} {s s' : Store V}

/-- The system `sys'` is `sys` with another store `i` and another transaction `name`. -/
structure Replaces (sys : System V) (i : Nat) (s' : Store V) (name : String) (t' : Txn V)
    (sys' : System V) : Prop where
  stores : sys'.stores = sys.stores.set i s'
  txn : sys'.txns.find name = some ⟨i, t'⟩
  txns : ∀ other, other ≠ name → sys'.txns.find other = sys.txns.find other
  sources : sys'.sources = sys.sources
  shared : sys'.shared = sys.shared
  scans : sys'.scans = sys.scans
  nextScan : sys'.nextScan = sys.nextScan
  reclaimed : sys'.reclaimed = sys.reclaimed

theorem act_set (hfind : sys.txns.find name = some ⟨i, t⟩) (hs : sys.stores[i]? = some s)
    (key : Key) (value : V) :
    (sys.act (.set name key value)).2 =
        .wrote (s.set t key value).verdict (s.set t key value).txn.writes.length ∧
      sys.Replaces i (s.set t key value).store name (s.set t key value).txn
        (sys.act (.set name key value)).1 := by
  have hact : sys.act (.set name key value) =
      ({ sys.setStore i (s.set t key value).store with
          txns := sys.txns.bind name ⟨i, (s.set t key value).txn⟩ },
        .wrote (s.set t key value).verdict (s.set t key value).txn.writes.length) := by
    simp [act, onTxn, onStore, hfind, hs]
  rw [hact]
  exact ⟨rfl, rfl, Bindings.find_bind_self _ _ _,
    fun other hother => Bindings.find_bind_of_ne _ _ hother, rfl, rfl, rfl, rfl, rfl⟩

/-- Every write in a run comes to one of four things. -/
theorem verdict_set_cases (configs : List Config) (shared : Bool) {run : List (Action V)}
    (hfind : ((start configs shared : System V).exec run).txns.find name = some ⟨i, t⟩)
    (hs : ((start configs shared : System V).exec run).stores[i]? = some s) (key : Key) (value : V) :
    let cell := ((start configs shared).exec run).cell i key
    let read := (start configs shared).Recorded run i key
    t.update = false ∧ (s.set t key value).verdict = .error .readOnly ∨
    t.update = true ∧ cell.Contended t ∧ (s.set t key value).verdict = .error .contended ∨
    t.update = true ∧ ¬ cell.Contended t ∧ cell.Admissible key t read ∧
      (s.set t key value).verdict = .ok () ∨
    t.update = true ∧ ¬ cell.Contended t ∧ ¬ cell.Admissible key t read ∧
      (s.set t key value).verdict = .error .conflict := by
  intro cell read
  have hreachable : ((start configs shared : System V).exec run).Reachable :=
    ⟨configs, shared, run, rfl⟩
  obtain ⟨hopen, -⟩ := openOn_of_find hreachable.sound.names hfind
  have hcell : cell = s.cell (t ::ₘ openOn (((start configs shared : System V).exec run).txns.unbind
      name) i) (((start configs shared : System V).exec run).nextId i) key := by
    rw [← hopen]
    exact cell_of_store hs key
  have hsound : cell.Sound key := hreachable.cell_sound i key
  have hread : ∀ v ∈ cell.chain.versions, v.stamp.admits t.readTs t.id = true ↔
      ∀ u, read v.serial u → u.readTs < t.readTs ∨ u.readTs = t.readTs ∧ u.id = t.id :=
    fun v hv => admits_iff_recorded configs shared hv t.readTs t.id
  rw [hcell] at hsound hread ⊢
  exact Store.verdict_set_cases (hreachable.sound.stores i s hs).valid hsound hread value

/-- Writes are admitted exactly. In every run of new stores a write by an open transaction is refused
    as read-only if the transaction was not opened for updates; otherwise as contended if the version
    in front of the chain is pending and held by another open transaction; otherwise it takes effect
    if it is admissible by the reads of the whole run, those that were refused included; otherwise it
    is refused as a conflict. A write that is refused changes nothing at all. One that takes effect
    changes the front of one chain and the transaction, and enters a new key into the index. -/
theorem writes_admitted (configs : List Config) (shared : Bool) {run : List (Action V)}
    (hfind : ((start configs shared : System V).exec run).txns.find name = some ⟨i, t⟩) (key : Key)
    (value : V) :
    let sys := (start configs shared).exec run
    let cell := sys.cell i key
    let read := (start configs shared).Recorded run i key
    let after := (sys.act (.set name key value)).1
    ∃ s s' t' verdict pending, sys.stores[i]? = some s ∧
      (sys.act (.set name key value)).2 = .wrote verdict pending ∧
      sys.Replaces i s' name t' after ∧
      (verdict = .error .readOnly ↔ t.update = false) ∧
      (t.update = true →
        (verdict = .error .contended ↔ cell.Contended t) ∧
        (¬ cell.Contended t →
          (verdict = .ok () ↔ cell.Admissible key t read) ∧
          (¬ cell.Admissible key t read → verdict = .error .conflict))) ∧
      (∀ e, verdict = .error e → s' = s ∧ t' = t ∧ after.stores = sys.stores ∧
        ∀ other, after.txns.find other = sys.txns.find other) ∧
      (verdict = .ok () → s.Writes t key value s' t') := by
  intro sys cell read after
  have hreachable : sys.Reachable := ⟨configs, shared, run, rfl⟩
  obtain ⟨s, hs⟩ := hreachable.sound.exists_store hfind
  obtain ⟨hanswer, hreplaces⟩ := act_set hfind hs key value
  have hvalid := (hreachable.sound.stores i s hs).valid
  have hcases := verdict_set_cases configs shared hfind hs key value
  refine ⟨s, _, _, _, _, hs, hanswer, hreplaces, ?_, ?_, ?_, ?_⟩
  · rcases hcases with ⟨hupdate, hverdict⟩ | ⟨hupdate, -, hverdict⟩ | ⟨hupdate, -, -, hverdict⟩ |
      ⟨hupdate, -, -, hverdict⟩ <;> simp [hupdate, hverdict]
  · rcases hcases with ⟨hupdate, hverdict⟩ | ⟨hupdate, hcontended, hverdict⟩ |
      ⟨hupdate, hfree, hadmissible, hverdict⟩ | ⟨hupdate, hfree, hconflict, hverdict⟩
    · simp [hupdate]
    · have hcontended : cell.Contended t := hcontended
      simp [hverdict, hcontended]
    · have hfree : ¬ cell.Contended t := hfree
      have hadmissible : cell.Admissible key t read := hadmissible
      simp [hverdict, hfree, hadmissible]
    · have hfree : ¬ cell.Contended t := hfree
      have hconflict : ¬ cell.Admissible key t read := hconflict
      simp [hverdict, hfree, hconflict]
  · intro e herror
    obtain ⟨hstore, htxn⟩ := Store.set_of_error hvalid herror
    refine ⟨hstore, htxn, ?_, ?_⟩
    · obtain ⟨hlt, heq⟩ := List.getElem?_eq_some_iff.1 hs
      rw [hreplaces.stores, hstore, ← heq, List.set_getElem_self]
    · intro other
      by_cases hother : other = name
      · rw [hother, hreplaces.txn, htxn]
        exact hfind.symm
      · exact hreplaces.txns other hother
  · intro hok
    obtain ⟨draft, hist, hholds⟩ := hreachable.holds_find hfind hs key
    exact Store.writes_of_ok hvalid hholds hok

/-- A transaction was refused a version that was held, the holder was discarded, and a third one that
    reads below the refused read conflicts with it. -/
theorem writes_admitted_after_refused_read :
    let run : List (Action Nat) := [.openTxn 0 "a" 1 true, .set "a" [7] 5, .commit "a" 2,
      .openTxn 0 "w" 3 true, .set "w" [7] 6, .openTxn 0 "r" 4 false, .get "r" [7], .discard "w",
      .openTxn 0 "v" 3 true]
    let sys := (start [.standard] false).exec run
    ∃ s s' t' pending, sys.stores[0]? = some s ∧
      (sys.act (.set "v" [7] 8)).2 = .wrote (.error .conflict) pending ∧
      sys.Replaces 0 s' "v" t' (sys.act (.set "v" [7] 8)).1 ∧ s' = s ∧ t' = ⟨4, 3, true, []⟩ ∧
      ¬ (sys.cell 0 [7]).Contended ⟨4, 3, true, []⟩ ∧
      ¬ (sys.cell 0 [7]).Admissible [7] ⟨4, 3, true, []⟩
        ((start [.standard] false).Recorded run 0 [7]) := by
  intro run sys
  have hfind : sys.txns.find "v" = some ⟨0, ⟨4, 3, true, []⟩⟩ := by decide +kernel
  obtain ⟨s, s', t', verdict, pending, hs, hanswer, hreplaces, -, hverdict, hrefused, -⟩ :=
    writes_admitted [.standard] false hfind [7] 8
  obtain ⟨hcontended, hrest⟩ := hverdict rfl
  have hconflict : (match (sys.act (.set "v" [7] 8)).2 with
      | .wrote v _ => some v
      | _ => none) = some (.error .conflict) := by decide +kernel
  rw [hanswer] at hconflict
  obtain rfl := Option.some_inj.1 hconflict
  have hfree : ¬ (sys.cell 0 [7]).Contended ⟨4, 3, true, []⟩ := fun h =>
    absurd (hcontended.2 h) (by decide)
  obtain ⟨hstore, htxn, -⟩ := hrefused _ rfl
  exact ⟨s, s', t', pending, hs, hanswer, hreplaces, hstore, htxn, hfree,
    fun h => absurd ((hrest hfree).1.2 h) (by decide)⟩

end System

end RadixStore
