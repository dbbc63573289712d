import Mathlib
import RadixStore.Proofs.Store.System

/-!
# What transactions are told

A transaction that asks for a key is told its own pending value, or what it finds in the chain. It
asks for one key by a read, and for every key that it comes to by a scan. The answers of reads and
scans are made of what is told.
-/

namespace RadixStore

variable {V : Type}

/-- What a transaction is told of a key. -/
inductive Told (V : Type) where
  /-- The value that it has pending itself. -/
  | own (value : V)
  /-- What it finds in the chain. -/
  | found (sight : Sight V)
deriving DecidableEq, Repr

/-- What it is told in the form of an answer. -/
def Told.answer : Told V → Except Refusal V
  | .own value => .ok value
  | .found sight => sight.answer

namespace Store

variable {s s' : Store V} {t : Txn V} {key : Key}

/-- What `t` is told when it asks for `key`. -/
def tells (s : Store V) (t : Txn V) (key : Key) : Told V :=
  match t.pending? key with
  | some p => .own p.value
  | none => .found ((s.chain key).look t.readTs t.id).1

theorem get_fst (hs : s.index.Valid) (t : Txn V) (key : Key) :
    (s.get t key).1 = (s.tells t key).answer := by
  cases hp : t.pending? key with
  | some p => simp [get_of_pending hp, tells, hp, Told.answer]
  | none => simp [(get_of_free hs hp).1, tells, hp, Told.answer]

/-- The keys that a scan comes to until one shows, each with the store at that moment. -/
def visits (t : Txn V) : Nat → Store V → Cursor → List (Store V × Key)
  | 0, _, _ => []
  | fuel + 1, s, c =>
    match (c.next s.index).item with
    | none => []
    | some l =>
      match s.visit t l with
      | (some _, _) => [(s, l.key)]
      | (none, s') => (s, l.key) :: visits t fuel s' (c.next s.index).cursor

/-- A scan yields the first key that shows among those that it comes to. -/
theorem scanUpTo_item (t : Txn V) (fuel : Nat) (hs : s.index.Valid) (c : Cursor) :
    (s.scanUpTo t fuel c).item =
      (s.visits t fuel c).findSome? fun v => shown v.2 (v.1.tells t v.2).answer := by
  induction fuel generalizing s c with
  | zero => rfl
  | succ fuel ih =>
    unfold scanUpTo visits
    dsimp only
    cases hitem : (c.next s.index).item with
    | none => rfl
    | some l =>
      have hvisit := visit_eq_get (t := t) (Cursor.get?_of_next hs hitem)
      have hvalid := (rechained_get s t l.key).valid hs
      have hanswer := get_fst hs t l.key
      dsimp only
      rw [hvisit]
      cases hshown : shown l.key (s.get t l.key).1 with
      | some item => simp [← hanswer, hshown]
      | none => simp [← hanswer, hshown, ih hvalid]

/-- When a scan comes to a key, the store has changed by earlier reads of the scan, and after it
    changes by this read and later ones. -/
theorem visits_spec (t : Txn V) (fuel : Nat) (hs : s.index.Valid) (c : Cursor) {v : Store V × Key}
    (hv : v ∈ s.visits t fuel c) :
    (∀ k, ReadBy t (s.chain k) (v.1.chain k)) ∧
      (t.pending? v.2 = none → ReadBy t ((v.1.chain v.2).look t.readTs t.id).2
        ((s.scanUpTo t fuel c).store.chain v.2)) := by
  induction fuel generalizing s c with
  | zero => simp [visits] at hv
  | succ fuel ih =>
    unfold visits at hv
    unfold scanUpTo
    dsimp only
    cases hitem : (c.next s.index).item with
    | none => simp [hitem] at hv
    | some l =>
      have hvisit := visit_eq_get (t := t) (Cursor.get?_of_next hs hitem)
      have hvalid := (rechained_get s t l.key).valid hs
      have hreads := readBy_get hs t l.key
      simp only [hitem] at hv
      dsimp only
      rw [hvisit] at hv ⊢
      cases hshown : shown l.key (s.get t l.key).1 with
      | some item =>
        simp only [hshown, List.mem_singleton] at hv
        subst hv
        refine ⟨fun k => .refl, fun hp => ?_⟩
        rw [(get_of_free hs hp).2, Function.update_self]
        exact .refl
      | none =>
        simp only [hshown] at hv
        rcases List.mem_cons.1 hv with rfl | hv
        · refine ⟨fun k => .refl, fun hp => ?_⟩
          have hrest := (scanUpTo_spec t fuel hvalid (c.next s.index).cursor).2 l.key
          rw [(get_of_free hs hp).2, Function.update_self] at hrest
          exact hrest
        · obtain ⟨hbefore, hafter⟩ := ih hvalid _ hv
          exact ⟨fun k => (hreads k).trans (hbefore k), hafter⟩

end Store

/-! ### Actions that tell -/

namespace System

variable {sys : System V} {a : Action V} {i : Nat} {t : Txn V} {key : Key} {told : Told V}

/-- In the action the transaction `t`, open on store `i`, asks for `key` and is told so. -/
inductive Tells (sys : System V) : Action V → Nat → Txn V → Key → Told V → Prop
  | read {name : String} {i : Nat} {t : Txn V} {s : Store V} {key : Key} :
      sys.txns.find name = some ⟨i, t⟩ → sys.stores[i]? = some s →
      Tells sys (.get name key) i t key (s.tells t key)
  | visit {n : Nat} {scan : OpenScan} {i : Nat} {t : Txn V} {s : Store V} {v : Store V × Key} :
      sys.scans.find n = some scan → sys.txns.find scan.txn = some ⟨i, t⟩ →
      sys.stores[i]? = some s → v ∈ s.visits t (s.size + 1) scan.cursor →
      Tells sys (.nextItem n) i t v.2 (v.1.tells t v.2)

theorem tells_get {name : String} (hfind : sys.txns.find name = some ⟨i, t⟩)
    (htold : (sys.stores[i]?.map fun s => s.tells t key) = some told) :
    sys.Tells (.get name key) i t key told := by
  obtain ⟨s, hs, rfl⟩ := Option.map_eq_some_iff.1 htold
  exact .read hfind hs

/-- A read answers what the transaction is told. -/
theorem act_get (h : sys.Sound) {name : String} {s : Store V}
    (hfind : sys.txns.find name = some ⟨i, t⟩) (hs : sys.stores[i]? = some s) (key : Key) :
    (sys.act (.get name key)).2 = .value (s.tells t key).answer := by
  rw [← Store.get_fst (h.stores i s hs).valid]
  simp [act, onTxn, onStore, hfind, hs]

/-- A scan answers the first key that shows among those of which the transaction is told. -/
theorem act_nextItem (h : sys.Sound) {n : Nat} {scan : OpenScan} {s : Store V}
    (hscan : sys.scans.find n = some scan) (hfind : sys.txns.find scan.txn = some ⟨i, t⟩)
    (hs : sys.stores[i]? = some s) :
    (sys.act (.nextItem n)).2 = .item ((s.visits t (s.size + 1) scan.cursor).findSome? fun v =>
      Store.shown v.2 (v.1.tells t v.2).answer) := by
  rw [← Store.scanUpTo_item t (s.size + 1) (h.stores i s hs).valid]
  simp [act, onScan, onTxn, onStore, hscan, hfind, hs, Store.scanNext]

/-- Whoever is told something is open, and finds the chain changed by nothing but reads within the
    action. -/
theorem Tells.cell (h : sys.Sound) (ht : sys.Tells a i t key told) :
    t ∈ openOn sys.txns i ∧ ∃ c, Store.ReadBy t (sys.cell i key).chain c ∧
      match t.pending? key with
      | some p => told = .own p.value
      | none => told = .found (c.look t.readTs t.id).1 ∧
          Cell.Steps key ⟨(c.look t.readTs t.id).2, openOn sys.txns i, sys.nextId i⟩
            ((sys.act a).1.cell i key) := by
  cases ht with
  | @read name i t s key hfind hs =>
    have hvalid := (h.stores i s hs).valid
    refine ⟨h.mem_openOn hfind, s.chain key, ?_, ?_⟩
    · rw [cell_of_store hs]
      exact .refl
    · unfold Store.tells
      cases hp : t.pending? key with
      | some p => rfl
      | none =>
        refine ⟨rfl, ?_⟩
        have hlt : i < sys.stores.length := (List.getElem?_eq_some_iff.1 hs).1
        have hact : (sys.act (.get name key)).1 = sys.setStore i (s.get t key).2 := by
          simp [act, onTxn, onStore, hfind, hs]
        have hstore : ((sys.act (.get name key)).1).stores[i]? = some (s.get t key).2 := by
          rw [hact]
          exact List.getElem?_set_self hlt
        rw [cell_of_store hstore, hact]
        unfold Store.cell
        rw [(Store.get_of_free hvalid hp).2, Function.update_self]
        exact .refl
  | @visit n scan i t s v hscan hfind hs hv =>
    have hvalid := (h.stores i s hs).valid
    obtain ⟨hbefore, hafter⟩ := Store.visits_spec t _ hvalid _ hv
    refine ⟨h.mem_openOn hfind, v.1.chain v.2, ?_, ?_⟩
    · rw [cell_of_store hs]
      exact hbefore v.2
    · unfold Store.tells
      cases hp : t.pending? v.2 with
      | some p => rfl
      | none =>
        refine ⟨rfl, ?_⟩
        have hlt : i < sys.stores.length := (List.getElem?_eq_some_iff.1 hs).1
        have hstore : ((sys.act (.nextItem n)).1).stores[i]? =
            some (s.scanNext t scan.cursor).store := by
          have hset : (sys.stores.set i (s.scanNext t scan.cursor).store)[i]? =
              some (s.scanNext t scan.cursor).store := List.getElem?_set_self hlt
          simpa [act, onScan, onTxn, onStore, hscan, hfind, hs, setStore] using hset
        have hsame : openOn ((sys.act (.nextItem n)).1).txns i = openOn sys.txns i ∧
            ((sys.act (.nextItem n)).1).nextId i = sys.nextId i := by
          simp [act, onScan, onTxn, onStore, hscan, hfind, hs, setStore, nextId, source?, sourceOf]
        rw [cell_of_store hstore, hsame.1, hsame.2]
        exact (hafter hp).steps (h.mem_openOn hfind) _

end System

end RadixStore
