import Mathlib
import RadixStore.Proofs.Store.ReadOn

/-!
# Scans over a run

A scan is open while other things happen: keys are written for the first time, chains are changed and
trimmed, other scans go on. As long as its transaction stays open, its cursor is in good order for the
places of the store as they are, and each item that it is asked for is the one of reading on.
-/

namespace RadixStore

variable {V : Type}

/-- Whether the action leaves the transaction called `name` open, and scan `n` on it. -/
def Action.keepsScan (name : String) (n : Nat) : Action V → Bool
  | .openTxn _ other _ _ | .commit other _ | .discard other => other ≠ name
  | .closeScan m => m ≠ n
  | _ => true

namespace System

variable {sys sys' : System V} {a : Action V} {i n L : Nat} {s : Store V} {t t₀ : Txn V}
  {name : String} {c : Cursor} {p : Progress}

/-! ### How far a scan has come by a run -/

/-- The next item of scan `n`, which has come as far as `p`, by reading on. -/
def readOn? (sys : System V) (n : Nat) (p : Progress) : Option (Reading V) :=
  (sys.scans.find n).bind fun scan => (sys.txns.find scan.txn).bind fun o =>
    sys.stores[o.store]?.map fun s => s.readOn o.txn p

/-- How far scan `n` has come after an action. -/
def progressBy (sys : System V) (n : Nat) (p : Progress) : Action V → Progress
  | .nextItem m => if m = n then (sys.readOn? n p).elim p p.after else p
  | _ => p

/-- How far scan `n` has come after a run. -/
def progressAfter (n : Nat) : System V → Progress → List (Action V) → Progress
  | _, p, [] => p
  | sys, p, a :: actions => progressAfter n (sys.act a).1 (sys.progressBy n p a) actions

theorem progressBy_of_ne (p : Progress) (h : a ≠ .nextItem n) : sys.progressBy n p a = p := by
  unfold progressBy
  split
  · rename_i m
    rw [if_neg]
    rintro rfl
    exact h rfl
  · rfl

/-! ### Places that grow -/

theorem Grows.grown (h : sys.Grows L sys') (hL : L ≤ 2 ^ 32) (hgrown : ∀ q ∈ sys.places, q.Grown L) :
    ∀ q ∈ sys'.places, q.Grown L := by
  rcases h with hsame | ⟨i, q, key, hq, hkey, hset⟩
  · rw [hsame]
    exact hgrown
  · rw [hset]
    intro r hr
    rcases List.mem_or_eq_of_mem_set hr with hr | rfl
    · exact hgrown r hr
    · exact ((hgrown q (List.mem_of_getElem? hq)).getOrInsert hL hkey _).1

/-- A cursor stays in good order when the places of its store grow. -/
theorem Grows.scannable (h : sys.Grows L sys') (hL : L ≤ 2 ^ 32)
    (hgrown : ∀ q ∈ sys.places, q.Grown L) (hs : sys.stores[i]? = some s) (hc : s.Scannable c) :
    ∃ s', sys'.stores[i]? = some s' ∧ s'.Scannable c := by
  have hplaces := places_of_store hs
  have hstore : ∀ q, sys'.places[i]? = some q → c.Sound q →
      ∃ s', sys'.stores[i]? = some s' ∧ s'.Scannable c := by
    intro q hq hsound
    unfold places at hq
    rw [List.getElem?_map] at hq
    obtain ⟨s', hs', rfl⟩ := Option.map_eq_some_iff.1 hq
    exact ⟨s', hs', hsound, hc.pastStart⟩
  rcases h with hsame | ⟨j, q, key, hq, hkey, hset⟩
  · exact hstore s.places (hsame ▸ hplaces) hc.sound
  · by_cases hj : j = i
    · subst hj
      rw [hplaces] at hq
      cases hq
      have hlt := (List.getElem?_eq_some_iff.1 hplaces).1
      have hold := hgrown _ (List.mem_of_getElem? hplaces)
      obtain ⟨-, hevolves, hascends⟩ := hold.getOrInsert hL hkey fun _ => ()
      refine hstore _ ?_ (hc.sound.evolves hold.numbered hevolves hascends)
      rw [hset, List.getElem?_set_self hlt]
    · refine hstore s.places ?_ hc.sound
      rw [hset, List.getElem?_set_ne hj]
      exact hplaces

/-! ### What other actions leave alone -/

/-- No scan is opened, closed or asked for an item. -/
def SameScans (sys sys' : System V) : Prop :=
  sys'.scans = sys.scans ∧ sys'.nextScan = sys.nextScan

theorem SameScans.onTxn (other : String) {f : OpenTxn V → Store V → System V × Answer V}
    (hf : ∀ o s, sys.SameScans (f o s).1) : sys.SameScans (sys.onTxn other f).1 :=
  onTxn_induction other ⟨rfl, rfl⟩ fun i t s _ _ => hf ⟨i, t⟩ s

theorem SameScans.onStore (i : Nat) {f : Store V → System V × Answer V}
    (hf : ∀ s, sys.SameScans (f s).1) : sys.SameScans (sys.onStore i f).1 :=
  onStore_induction i ⟨rfl, rfl⟩ fun s _ => hf s

theorem SameScans.takeId {id : TxnId} (h : sys.SameScans sys') {after : System V}
    (hid : sys'.takeId i = some (id, after)) : sys.SameScans after := by
  obtain ⟨b, -, heq⟩ := Option.map_eq_some_iff.1 hid
  obtain ⟨-, rfl⟩ := Prod.mk.inj heq
  exact h

theorem SameScans.openTxn (i : Nat) (other : String) (readTs : Timestamp) (update : Bool) :
    sys.SameScans (sys.openTxn i other readTs update).1 := by
  have hdiscard : sys.SameScans (sys.discard other).1 := .onTxn other fun _ _ => ⟨rfl, rfl⟩
  have htake : ∀ id after, (sys.discard other).1.takeId i = some (id, after) →
      sys.SameScans after := fun id after hid => hdiscard.takeId hid
  exact openTxn_induction hdiscard htake fun id after s hid _ => htake id after hid

/-- Scan `n` goes on only when it is asked for an item. -/
theorem scans_act (hlt : n < sys.nextScan) (hkeep : a.keepsScan name n = true)
    (hother : a ≠ .nextItem n) :
    (sys.act a).1.scans.find n = sys.scans.find n ∧ n < (sys.act a).1.nextScan := by
  have hsame : ∀ {sys' : System V}, sys.SameScans sys' →
      sys'.scans.find n = sys.scans.find n ∧ n < sys'.nextScan := by
    rintro sys' ⟨hscans, hnext⟩
    rw [hscans, hnext]
    exact ⟨rfl, hlt⟩
  cases a with
  | openTxn i other readTs update => exact hsame (.openTxn i other readTs update)
  | get other key => exact hsame (.onTxn other fun _ _ => ⟨rfl, rfl⟩)
  | set other key value => exact hsame (.onTxn other fun _ _ => ⟨rfl, rfl⟩)
  | commit other ts => exact hsame (.onTxn other fun _ _ => ⟨rfl, rfl⟩)
  | discard other => exact hsame (.onTxn other fun _ _ => ⟨rfl, rfl⟩)
  | gc j => exact hsame (.onStore j fun _ => ⟨rfl, rfl⟩)
  | advanceWatermark j ts => exact hsame (.onStore j fun _ => ⟨rfl, rfl⟩)
  | openScan other lower upper dir =>
    refine onTxn_induction (P := fun sys' => sys'.scans.find n = sys.scans.find n ∧
      n < sys'.nextScan) other ⟨rfl, hlt⟩ fun i t s _ _ => ⟨?_, Nat.lt_succ_of_lt hlt⟩
    exact Bindings.find_bind_of_ne _ _ (Nat.ne_of_lt hlt)
  | nextItem m =>
    have hm : n ≠ m := by
      rintro rfl
      exact hother rfl
    refine onScan_induction (P := fun sys' => sys'.scans.find n = sys.scans.find n ∧
      n < sys'.nextScan) m ⟨rfl, hlt⟩ fun scan i t s _ _ _ => ⟨?_, hlt⟩
    exact Bindings.find_bind_of_ne _ _ hm
  | closeScan m =>
    have hm : m ≠ n := of_decide_eq_true hkeep
    exact ⟨Bindings.find_unbind_of_ne _ hm.symm, hlt⟩
  | takeId j =>
    have htake : sys.SameScans (sys.act (.takeId j)).1 :=
      act_takeId_induction j ⟨rfl, rfl⟩ fun _ _ hid => SameScans.takeId ⟨rfl, rfl⟩ hid
    exact hsame htake

/-- The transaction called `name` is still the one with the identity and the timestamp of `t₀`. -/
def Runs (sys : System V) (name : String) (i : Nat) (t₀ : Txn V) : Prop :=
  ∃ t, sys.txns.find name = some ⟨i, t⟩ ∧ t.id = t₀.id ∧ t.readTs = t₀.readTs

theorem Runs.congr (h : sys.Runs name i t₀)
    (hfind : sys'.txns.find name = sys.txns.find name) : sys'.Runs name i t₀ := by
  obtain ⟨t, ht, hsame⟩ := h
  exact ⟨t, hfind.trans ht, hsame⟩

theorem Runs.onTxn (h : sys.Runs name i t₀) (other : String)
    {f : OpenTxn V → Store V → System V × Answer V}
    (hf : ∀ o s, (f o s).1.txns.find name = sys.txns.find name) :
    (sys.onTxn other f).1.Runs name i t₀ :=
  onTxn_induction (P := fun sys' => sys'.Runs name i t₀) other h fun j t s _ _ =>
    h.congr (hf ⟨j, t⟩ s)

theorem Runs.onStore (h : sys.Runs name i t₀) (j : Nat) {f : Store V → System V × Answer V}
    (hf : ∀ s, (f s).1.txns = sys.txns) : (sys.onStore j f).1.Runs name i t₀ :=
  onStore_induction (P := fun sys' => sys'.Runs name i t₀) j h fun s _ => h.congr (by rw [hf s])

theorem Runs.discard (h : sys.Runs name i t₀) {other : String} (hne : other ≠ name) :
    (sys.discard other).1.Runs name i t₀ :=
  h.onTxn other fun _ _ => Bindings.find_unbind_of_ne _ hne.symm

/-- A transaction goes on under its name until it ends. -/
theorem Runs.act (h : sys.Runs name i t₀) (hkeep : a.keepsScan name n = true) :
    (sys.act a).1.Runs name i t₀ := by
  cases a with
  | openTxn j other readTs update =>
    have hne : other ≠ name := of_decide_eq_true hkeep
    have hdiscard := h.discard hne
    have htake : ∀ id after, (sys.discard other).1.takeId j = some (id, after) →
        after.Runs name i t₀ := by
      intro id after hid
      obtain ⟨-, htxns, -⟩ := takeId_spec hid
      exact hdiscard.congr (by rw [htxns])
    exact openTxn_induction (P := fun sys' => sys'.Runs name i t₀) hdiscard htake
      fun id after s hid _ => (htake id after hid).congr (Bindings.find_bind_of_ne _ _ hne.symm)
  | get other key => exact h.onTxn other fun _ _ => rfl
  | set other key value =>
    refine onTxn_induction (P := fun sys' => sys'.Runs name i t₀) other h fun j u s hfind _ => ?_
    by_cases hname : other = name
    · subst hname
      obtain ⟨t, ht, hid, hreadTs⟩ := h
      rw [hfind] at ht
      cases ht
      obtain ⟨hsameId, hsameTs⟩ := Store.txn_set s u key value
      exact ⟨_, Bindings.find_bind_self _ _ _, hsameId.trans hid, hsameTs.trans hreadTs⟩
    · exact h.congr (Bindings.find_bind_of_ne _ _ (Ne.symm hname))
  | commit other ts =>
    have hne : other ≠ name := of_decide_eq_true hkeep
    exact h.onTxn other fun _ _ => Bindings.find_unbind_of_ne _ hne.symm
  | discard other => exact h.discard (of_decide_eq_true hkeep)
  | openScan other lower upper dir => exact h.onTxn other fun _ _ => rfl
  | nextItem m =>
    exact onScan_induction (P := fun sys' => sys'.Runs name i t₀) m h fun _ _ _ _ _ _ _ =>
      h.congr rfl
  | closeScan m => exact h.congr rfl
  | gc j => exact h.onStore j fun _ => rfl
  | advanceWatermark j ts => exact h.onStore j fun _ => rfl
  | takeId j =>
    refine act_takeId_induction (P := fun sys' => sys'.Runs name i t₀) j h fun id after hid => ?_
    obtain ⟨-, htxns, -⟩ := takeId_spec hid
    exact h.congr (by rw [htxns])

/-! ### Open scans -/

/-- Scan `n` of the transaction `t₀`, called `name`, on store `i` has come as far as `p`. -/
structure Serves (sys : System V) (n : Nat) (name : String) (i : Nat) (t₀ : Txn V) (p : Progress) :
    Prop where
  sound : sys.Sound
  grown : ∀ q ∈ sys.places, q.Grown (2 ^ 32)
  runs : sys.Runs name i t₀
  opened : n < sys.nextScan
  scan : ∃ c s, sys.scans.find n = some ⟨name, c⟩ ∧ sys.stores[i]? = some s ∧ c.progress = p ∧
    s.Scannable c

/-- To ask a scan for an item is to read on. -/
theorem act_nextItem_eq (hscan : sys.scans.find n = some ⟨name, c⟩)
    (hfind : sys.txns.find name = some ⟨i, t⟩) (hs : sys.stores[i]? = some s) :
    sys.act (.nextItem n) =
      ({ sys.setStore i (s.scanNext t c).store with
          scans := sys.scans.bind n ⟨name, (s.scanNext t c).cursor⟩ },
        .item (s.scanNext t c).item) := by
  simp only [act, onScan, onTxn, onStore, hscan, hfind, hs]

theorem Serves.nextItem (h : sys.Serves n name i t₀ p) :
    ∃ t s, sys.txns.find name = some ⟨i, t⟩ ∧ t.id = t₀.id ∧ t.readTs = t₀.readTs ∧
      sys.stores[i]? = some s ∧ sys.readOn? n p = some (s.readOn t p) ∧
      (sys.act (.nextItem n)).2 = .item (s.readOn t p).item ∧
      ∃ c, c.progress = p.after (s.readOn t p) ∧ (s.readOn t p).store.Scannable c ∧
        (sys.act (.nextItem n)).1 = { sys.setStore i (s.readOn t p).store with
          scans := sys.scans.bind n ⟨name, c⟩ } := by
  obtain ⟨t, hfind, hid, hreadTs⟩ := h.runs
  obtain ⟨c, s, hscan, hs, rfl, hscannable⟩ := h.scan
  have hvalid := (h.sound.stores i s hs).valid
  have hgrown := h.grown s.places (List.mem_of_getElem? (places_of_store hs))
  obtain ⟨hitem, hstore, hprogress, hcursor⟩ := Store.scanNext_eq hvalid hgrown hscannable t
  have hact := act_nextItem_eq hscan hfind hs
  rw [hitem, hstore] at hact
  have hplaces : (s.readOn t c.progress).store.places = s.places := by
    rw [← hstore]
    exact (Store.keeps_scanUpTo t _ s c hvalid).2
  refine ⟨t, s, hfind, hid, hreadTs, hs, ?_, by rw [hact], _, hprogress, ?_, by rw [hact]⟩
  · simp only [readOn?, hscan, hfind, hs, Option.bind_some, Option.map_some]
  · exact ⟨by rw [hplaces]; exact hcursor.sound, hcursor.pastStart⟩

theorem Serves.act (h : sys.Serves n name i t₀ p) (hkeys : a.keysBelow (2 ^ 32) = true)
    (hkeep : a.keepsScan name n = true) :
    (sys.act a).1.Serves n name i t₀ (sys.progressBy n p a) := by
  have hgrows := h.sound.grows a hkeys
  have hgrown := hgrows.grown le_rfl h.grown
  have hsound := (h.sound.act a).sound
  have hruns := h.runs.act hkeep
  by_cases hnext : a = .nextItem n
  · subst hnext
    obtain ⟨t, s, hfind, -, -, hs, hread, -, c, hprogress, hscannable, hact⟩ := h.nextItem
    have hlt : i < sys.stores.length := (List.getElem?_eq_some_iff.1 hs).1
    refine ⟨hsound, hgrown, hruns, ?_, c, (s.readOn t p).store, ?_, ?_, ?_, hscannable⟩
    · rw [hact]
      exact h.opened
    · rw [hact]
      exact Bindings.find_bind_self _ _ _
    · rw [hact]
      exact List.getElem?_set_self hlt
    · unfold progressBy
      dsimp only
      rw [if_pos rfl, hread]
      exact hprogress
  · obtain ⟨hscans, hopened⟩ := scans_act h.opened hkeep hnext
    obtain ⟨c, s, hscan, hs, hprogress, hscannable⟩ := h.scan
    obtain ⟨s', hs', hscannable'⟩ := hgrows.scannable le_rfl h.grown hs hscannable
    rw [progressBy_of_ne p hnext]
    exact ⟨hsound, hgrown, hruns, hopened, c, s', hscans.trans hscan, hs', hprogress, hscannable'⟩

theorem Serves.exec (h : sys.Serves n name i t₀ p) {actions : List (Action V)}
    (hkeys : actions.all (Action.keysBelow (2 ^ 32)) = true)
    (hkeep : actions.all (Action.keepsScan name n) = true) :
    (sys.exec actions).Serves n name i t₀ (progressAfter n sys p actions) := by
  induction actions generalizing sys p with
  | nil => exact h
  | cons a actions ih =>
    obtain ⟨hkey, hkeys⟩ := Bool.and_eq_true_iff.1 hkeys
    obtain ⟨hkeepa, hkeep⟩ := Bool.and_eq_true_iff.1 hkeep
    exact ih (h.act hkey hkeepa) hkeys hkeep

/-! ### The end of a scan -/

theorem grown_start (configs : List Config) (shared : Bool) (L : Nat) :
    ∀ q ∈ (start configs shared : System V).places, q.Grown L := by
  intro q hq
  obtain ⟨s, hs, rfl⟩ := List.mem_map.1 hq
  obtain ⟨config, -, rfl⟩ := List.mem_map.1 hs
  have hempty : (Store.empty config : Store V).places = .empty := by
    unfold Store.places Store.empty Tree.map Tree.empty
    rw [Branch.map_empty]
  rw [hempty]
  exact Tree.grown_empty L

end System

end RadixStore
