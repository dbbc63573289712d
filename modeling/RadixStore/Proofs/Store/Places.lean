import Mathlib
import RadixStore.Proofs.Store.System
import RadixStore.Proofs.Tree.Map
import RadixStore.Proofs.Tree.Wear

/-!
# Where the keys of a store stand

The places of a store are its index without the chains: which keys were ever written, and the nodes on
the ways to them. A cursor looks at nothing else. Only the first write of a key changes the places, by
making sure of the key; every other operation changes chains. So the places of a store grow and never
shrink, and its nodes are never write-locked often enough for a lock word to wrap around.
-/

namespace RadixStore

variable {V : Type}

/-- A change of a value is not seen where values are left out. -/
theorem Tree.Valid.map_update {W : Type} {t : Tree V} (ht : t.Valid) {g : V → W} {f : V → V}
    (hf : ∀ v, g (f v) = g v) (key : Key) : (t.update key f).map g = t.map g := by
  have hself : t.update key (fun v => v) = t := by
    unfold Tree.update
    rw [Branch.Valid.update_self key t.root 0 ht]
  have hid : (t.map g).update key (fun w => w) = (t.update key fun v => v).map g :=
    Tree.update_map (g := g) (f := fun v => v) (fun _ => rfl) t key
  have hf : (t.map g).update key (fun w => w) = (t.update key f).map g :=
    Tree.update_map (fun v => (hf v).symm) t key
  rw [← hf, hid, hself]

namespace Store

variable {s s' s'' : Store V} {t : Txn V} {key : Key}

/-- The index without the chains. -/
def places (s : Store V) : Tree Unit :=
  s.index.map fun _ => ()

/-- The operation that leads to `s'` looks at chains only. -/
def Keeps (s s' : Store V) : Prop :=
  s.index.Valid → s'.index.Valid ∧ s'.places = s.places

theorem Keeps.refl (s : Store V) : s.Keeps s :=
  fun hs => ⟨hs, rfl⟩

theorem Keeps.trans (h : s.Keeps s') (h' : s'.Keeps s'') : s.Keeps s'' := by
  intro hs
  obtain ⟨hvalid, hplaces⟩ := h hs
  obtain ⟨hvalid', hplaces'⟩ := h' hvalid
  exact ⟨hvalid', hplaces'.trans hplaces⟩

theorem keeps_foldl {α : Type} {f : Store V → α → Store V}
    (hf : ∀ (s : Store V) (a : α), s.Keeps (f s a))
    (as : List α) (s : Store V) : s.Keeps (as.foldl f s) := by
  induction as generalizing s with
  | nil => exact .refl s
  | cons a as ih => exact (hf s a).trans (ih _)

theorem keeps_updateChain (s : Store V) (key : Key) (f : Chain V → Chain V) :
    s.Keeps (s.updateChain key f) :=
  fun hs => ⟨hs.update, hs.map_update (g := fun _ => ()) (fun _ => rfl) key⟩

theorem keeps_writes (f : Pending V → Chain V → Chain V) (writes : List (Key × Pending V))
    (s : Store V) : s.Keeps (writes.foldl (fun s w => s.updateChain w.1 (f w.2)) s) :=
  keeps_foldl (fun s w => keeps_updateChain s w.1 (f w.2)) writes s

/-! ### Operations that keep the places -/

theorem keeps_get (s : Store V) (t : Txn V) (key : Key) : s.Keeps (s.get t key).2 := by
  unfold Store.get
  split
  · exact .refl s
  · split
    · exact .refl s
    · exact keeps_updateChain s key _

theorem keeps_trimChain (s : Store V) (key : Key) (safepoint : Timestamp) :
    s.Keeps (s.trimChain key safepoint).1 := by
  unfold trimChain
  split
  · exact .refl s
  · split
    · exact .refl s
    · exact keeps_updateChain s key _

/-- Opening and ending a transaction changes the registry only. -/
theorem Keeps.closeTxn (h : s.Keeps s') (t : Txn V) : s.Keeps (s'.closeTxn t) :=
  h

theorem keeps_discard (s : Store V) (t : Txn V) : s.Keeps (s.discard t) := by
  have hwithdraw : s.Keeps (s.withdraw t.writes) :=
    keeps_writes (fun p c => c.abort p.installed) t.writes s
  rw [discard_eq]
  exact hwithdraw.closeTxn t

theorem keeps_commit (s : Store V) (t : Txn V) (ts : Timestamp) : s.Keeps (s.commit t ts).store := by
  have hwrites : s.Keeps (s.publish ts t.writes) :=
    keeps_writes (fun p c => c.commit p.installed ts) t.writes s
  have hpublish := hwrites.closeTxn t
  rcases lt_or_ge ts t.readTs with hts | hts
  · rw [commit_of_lt hts]
    exact keeps_discard s t
  · rcases (commit_cases hts).2 with hstore | ⟨-, hstore⟩
    · rw [hstore]
      exact hpublish
    · rw [hstore]
      exact hpublish.trans (keeps_foldl (fun s key => keeps_trimChain s key _) _ _)

theorem keeps_gc (s : Store V) : s.Keeps s.gc.1 := by
  unfold Store.gc
  rw [sweepKeys_fst]
  exact keeps_foldl (fun s key => keeps_trimChain s key _) _ s

theorem keeps_scanUpTo (t : Txn V) (fuel : Nat) (s : Store V) (c : Cursor) :
    s.Keeps (s.scanUpTo t fuel c).store := by
  induction fuel generalizing s c with
  | zero => exact .refl s
  | succ fuel ih =>
    intro hs
    unfold scanUpTo
    dsimp only
    cases hitem : (c.next s.index).item with
    | none => exact ⟨hs, rfl⟩
    | some l =>
      have hget := keeps_get s t l.key
      dsimp only
      rw [visit_eq_get (Cursor.get?_of_next hs hitem)]
      cases shown l.key (s.get t l.key).1 with
      | some item => exact hget hs
      | none => exact hget.trans (ih _ _) hs

/-- A write makes sure of its key, or keeps the places. -/
theorem places_set (hs : s.index.Valid) (t : Txn V) (key : Key) (value : V) :
    (s.set t key value).store.places = s.places ∨
      (s.set t key value).store.places = (s.places.getOrInsert key fun _ => ()).written.tree := by
  unfold Store.set
  split
  · split
    · unfold setAgain
      split
      · exact Or.inl rfl
      · exact Or.inl (keeps_updateChain s key _ hs).2
    · obtain ⟨-, hrechained, -⟩ := chain_getOrInsert hs key
      have hvalid := hrechained.valid hs
      have hplaces := (Tree.getOrInsert_map (fun _ => ()) s.index key (fun _ => Chain.empty)
        (fun _ => ()) rfl).2
      unfold setFirst
      dsimp only
      split
      · exact Or.inr (congrArg Written.tree hplaces).symm
      · exact Or.inr ((keeps_updateChain _ key _ hvalid).2.trans (congrArg Written.tree hplaces).symm)
  · exact Or.inl rfl

end Store

/-! ### The places of a system -/

/-- Whether the action writes no key of this length or a greater one. -/
def Action.keysBelow (length : Nat) : Action V → Bool
  | .set _ key _ => key.length < length
  | _ => true

namespace System

variable {sys sys' sys'' : System V} {i : Nat} {s s' : Store V}

/-- The places of all stores. -/
def places (sys : System V) : List (Tree Unit) :=
  sys.stores.map Store.places

theorem places_of_store (hs : sys.stores[i]? = some s) : sys.places[i]? = some s.places := by
  unfold places
  rw [List.getElem?_map, hs]
  rfl

theorem places_setStore (sys : System V) (i : Nat) (s : Store V) :
    (sys.setStore i s).places = sys.places.set i s.places :=
  List.map_set

theorem places_setStore_of_eq (hs : sys.stores[i]? = some s) (hplaces : s'.places = s.places) :
    (sys.setStore i s').places = sys.places :=
  map_stores_setStore hs hplaces

theorem places_setStore_of_keeps (h : sys.Sound) (hs : sys.stores[i]? = some s)
    (hkeeps : s.Keeps s') : (sys.setStore i s').places = sys.places :=
  places_setStore_of_eq hs (hkeeps (h.stores i s hs).valid).2

/-- A key may have been made sure of in one of the stores. -/
def Grows (L : Nat) (sys sys' : System V) : Prop :=
  sys'.places = sys.places ∨
    ∃ i p key, sys.places[i]? = some p ∧ key.length ≤ L ∧
      sys'.places = sys.places.set i (p.getOrInsert key fun _ => ()).written.tree

theorem places_discard (h : sys.Sound) (name : String) :
    (sys.discard name).1.places = sys.places :=
  onTxn_induction (P := fun sys' => sys'.places = sys.places) name rfl fun _ t _ _ hs =>
    places_setStore_of_keeps h hs (Store.keeps_discard _ t)

theorem places_openTxn (h : sys.Sound) (i : Nat) (name : String) (readTs : Timestamp)
    (update : Bool) : (sys.openTxn i name readTs update).1.places = sys.places := by
  have hplaces := places_discard h name
  have hsound := (h.discard name).sound
  have htake : ∀ id after, (sys.discard name).1.takeId i = some (id, after) →
      after.places = sys.places := by
    intro id after hid
    obtain ⟨hstores, -⟩ := takeId_spec hid
    exact (congrArg (List.map Store.places) hstores).trans hplaces
  refine openTxn_induction (P := fun sys' => sys'.places = sys.places) hplaces htake ?_
  intro id after s hid hs
  have hsame : (s.openTxn id readTs update).1.places = s.places := rfl
  exact (places_setStore_of_eq hs hsame).trans (htake id after hid)

/-- An action makes sure of one key at most. -/
theorem Sound.grows (h : sys.Sound) {L : Nat} (a : Action V) (ha : a.keysBelow L = true) :
    sys.Grows L (sys.act a).1 := by
  cases a with
  | openTxn i name readTs update => exact Or.inl (places_openTxn h i name readTs update)
  | get name key =>
    refine onTxn_induction name (Or.inl rfl) fun i t s hfind hs => Or.inl ?_
    exact places_setStore_of_keeps h hs (Store.keeps_get s t key)
  | set name key value =>
    refine onTxn_induction name (Or.inl rfl) fun i t s hfind hs => ?_
    have hlength : key.length < L := of_decide_eq_true ha
    rcases Store.places_set (h.stores i s hs).valid t key value with hsame | hnew
    · exact Or.inl (places_setStore_of_eq hs hsame)
    · have hplaces := places_setStore sys i (s.set t key value).store
      rw [hnew] at hplaces
      exact Or.inr ⟨i, s.places, key, places_of_store hs, hlength.le, hplaces⟩
  | commit name ts =>
    refine onTxn_induction name (Or.inl rfl) fun i t s hfind hs => Or.inl ?_
    exact places_setStore_of_keeps h hs (Store.keeps_commit s t ts)
  | discard name => exact Or.inl (places_discard h name)
  | openScan name lower upper dir =>
    exact onTxn_induction name (Or.inl rfl) fun i t s hfind hs => Or.inl rfl
  | nextItem n =>
    refine onScan_induction n (Or.inl rfl) fun scan i t s _ hfind hs => Or.inl ?_
    exact places_setStore_of_keeps h hs (Store.keeps_scanUpTo t _ s scan.cursor)
  | closeScan n => exact Or.inl rfl
  | gc i =>
    refine onStore_induction i (Or.inl rfl) fun s hs => Or.inl ?_
    exact places_setStore_of_keeps h hs (Store.keeps_gc s)
  | advanceWatermark i ts =>
    refine onStore_induction i (Or.inl rfl) fun s hs => Or.inl ?_
    exact places_setStore_of_keeps h hs fun hvalid => ⟨hvalid, rfl⟩
  | takeId i =>
    refine act_takeId_induction i (Or.inl rfl) fun id after hid => Or.inl ?_
    obtain ⟨hstores, -⟩ := takeId_spec hid
    exact congrArg (List.map Store.places) hstores

end System

end RadixStore
