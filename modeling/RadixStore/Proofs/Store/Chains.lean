import Mathlib
import RadixStore.Proofs.Chain.Trim
import RadixStore.Proofs.Cursor.Present
import RadixStore.Proofs.Names
import RadixStore.Proofs.Tree.Contents
import RadixStore.Store.Scan

/-!
# What operations do to the chains

An operation of a store changes the chains of some keys and leaves the others, and the registry, the
watermark and the configuration, as they were. A key that was never written counts as one with an
empty chain: it reads the same, and the first write makes no difference but the chain.
-/

namespace RadixStore

variable {V : Type}

namespace Store

variable {s s' : Store V} {t : Txn V} {key : Key} {p : Pending V} {c : Chain V} {value : V}

/-- The chain of `key`, an empty one if it was never written. -/
def chain (s : Store V) (key : Key) : Chain V :=
  (s.chain? key).getD .empty

/-- The store `s'` is `s` with other chains. -/
structure Rechained (s s' : Store V) : Prop where
  valid : s.index.Valid → s'.index.Valid
  active_eq : s'.active = s.active
  watermark_eq : s'.watermark = s.watermark
  config_eq : s'.config = s.config

theorem Rechained.refl (s : Store V) : s.Rechained s :=
  ⟨fun h => h, rfl, rfl, rfl⟩

theorem Rechained.trans {s'' : Store V} (h : s.Rechained s') (h' : s'.Rechained s'') :
    s.Rechained s'' :=
  ⟨fun hs => h'.valid (h.valid hs), h'.active_eq.trans h.active_eq,
    h'.watermark_eq.trans h.watermark_eq, h'.config_eq.trans h.config_eq⟩

theorem Rechained.safepoint_eq (h : s.Rechained s') : s'.safepoint = s.safepoint := by
  unfold Store.safepoint
  rw [h.active_eq, h.watermark_eq]

/-! ### One chain -/

theorem chain_eq_of_chain? (h : s.chain? key = some c) : s.chain key = c := by
  simp [chain, h]

theorem rechained_updateChain (s : Store V) (key : Key) (f : Chain V → Chain V) :
    s.Rechained (s.updateChain key f) :=
  ⟨fun h => h.update, rfl, rfl, rfl⟩

/-- A change that leaves empty chains empty, or one to the chain of a key that was written. -/
theorem chain_updateChain (hs : s.index.Valid) (key : Key) {f : Chain V → Chain V}
    (hf : f .empty = .empty ∨ (s.chain? key).isSome) :
    (s.updateChain key f).chain = Function.update s.chain key (f (s.chain key)) := by
  funext k
  have hget : (s.updateChain key f).chain? k =
      Function.update s.index.get? key ((s.chain? key).map f) k := congrFun hs.get?_update k
  by_cases hk : k = key
  · subst hk
    rw [Function.update_self] at hget ⊢
    unfold chain
    rw [hget]
    cases hc : s.chain? k with
    | some c => rfl
    | none =>
      rw [hc] at hf
      rcases hf with hf | hf
      · exact hf.symm
      · simp at hf
  · rw [Function.update_of_ne hk] at hget ⊢
    exact congrArg (Option.getD · .empty) hget

/-! ### Reading -/

theorem rechained_lookAt (s : Store V) (t : Txn V) (key : Key) (c : Chain V) :
    s.Rechained (s.lookAt t key c).2 :=
  rechained_updateChain s key _

theorem lookAt_of_chain? (hs : s.index.Valid) (hc : s.chain? key = some c) :
    (s.lookAt t key c).1 = ((s.chain key).look t.readTs t.id).1.answer ∧
      (s.lookAt t key c).2.chain =
        Function.update s.chain key ((s.chain key).look t.readTs t.id).2 := by
  rw [chain_eq_of_chain? hc]
  refine ⟨rfl, ?_⟩
  show (s.updateChain key fun _ => (c.look t.readTs t.id).2).chain = _
  rw [chain_updateChain hs key (Or.inr (by simp [hc]))]

theorem get_of_pending (h : t.pending? key = some p) : s.get t key = (.ok p.value, s) := by
  simp [get, h]

/-- Without a pending write of its own a transaction reads the chain. -/
theorem get_of_free (hs : s.index.Valid) (h : t.pending? key = none) :
    (s.get t key).1 = ((s.chain key).look t.readTs t.id).1.answer ∧
      (s.get t key).2.chain = Function.update s.chain key ((s.chain key).look t.readTs t.id).2 := by
  unfold Store.get
  rw [h]
  cases hc : s.chain? key with
  | some c => exact lookAt_of_chain? hs hc
  | none =>
    have hempty : s.chain key = .empty := by simp [chain, hc]
    refine ⟨by simp [hempty, Chain.empty, Chain.look, Chain.lookIn, Sight.answer], ?_⟩
    have hlook : ((Chain.empty : Chain V).look t.readTs t.id).2 = .empty := rfl
    rw [hempty, hlook, ← hempty, Function.update_eq_self]

theorem rechained_get (s : Store V) (t : Txn V) (key : Key) : s.Rechained (s.get t key).2 := by
  unfold Store.get
  split
  · exact .refl s
  · split
    · exact .refl s
    · exact rechained_lookAt s t key _

/-! ### Scanning -/

/-- What a scan shows of a key that answers a read like this. -/
def shown (key : Key) : Except Refusal V → Option (ScanItem V)
  | .ok value => some (.ok (key, value))
  | .error .absent => none
  | .error e => some (.error e)

theorem visit_of_pending {l : Leaf (Chain V)} (h : t.pending? l.key = some p) :
    s.visit t l = (some (.ok (l.key, p.value)), s) := by
  simp [visit, h]

theorem visit_of_free {l : Leaf (Chain V)} (h : t.pending? l.key = none) :
    s.visit t l = (shown l.key (s.lookAt t l.key l.value).1, (s.lookAt t l.key l.value).2) := by
  unfold visit
  rw [h]
  dsimp only
  cases s.lookAt t l.key l.value with
  | mk answer s' =>
    cases answer with
    | ok value => rfl
    | error e => cases e <;> rfl

/-- To come to a key is to read it. -/
theorem visit_eq_get {l : Leaf (Chain V)} (hl : s.chain? l.key = some l.value) :
    s.visit t l = (shown l.key (s.get t l.key).1, (s.get t l.key).2) := by
  cases hp : t.pending? l.key with
  | some p => rw [visit_of_pending hp, get_of_pending hp]; rfl
  | none =>
    rw [visit_of_free hp]
    simp [Store.get, hp, hl]

theorem rechained_visit (s : Store V) (t : Txn V) (l : Leaf (Chain V)) :
    s.Rechained (s.visit t l).2 := by
  cases hp : t.pending? l.key with
  | some p =>
    rw [visit_of_pending hp]
    exact .refl s
  | none =>
    rw [visit_of_free hp]
    exact rechained_lookAt s t l.key l.value

/-- The chain `c'` is `c` after reads of the transaction. -/
def ReadBy (t : Txn V) : Chain V → Chain V → Prop :=
  Relation.ReflTransGen fun c c' => c' = (c.look t.readTs t.id).2

theorem readBy_update (hc : s'.chain = Function.update s.chain key
    ((s.chain key).look t.readTs t.id).2) (k : Key) : ReadBy t (s.chain k) (s'.chain k) := by
  rw [hc]
  by_cases hk : k = key
  · subst hk
    rw [Function.update_self]
    exact .single rfl
  · rw [Function.update_of_ne hk]
    exact .refl

theorem readBy_get (hs : s.index.Valid) (t : Txn V) (key k : Key) :
    ReadBy t (s.chain k) ((s.get t key).2.chain k) := by
  cases hp : t.pending? key with
  | some p =>
    rw [get_of_pending hp]
    exact .refl
  | none => exact readBy_update (get_of_free hs hp).2 k

/-- Reads keep whatever does not depend on the record of reads. -/
theorem ReadBy.map_versions {α : Type} {f : Version V → α}
    (hf : ∀ v stamp, f { v with stamp := stamp } = f v) {c c' : Chain V} (h : ReadBy t c c') :
    c'.versions.map f = c.versions.map f := by
  induction h with
  | refl => rfl
  | tail _ hread ih =>
    subst hread
    exact (Chain.map_lookIn hf _ _ _).trans ih

/-- A scan reads the keys that it comes to, and does nothing else. -/
theorem scanUpTo_spec (t : Txn V) (fuel : Nat) (hs : s.index.Valid) (c : Cursor) :
    s.Rechained (s.scanUpTo t fuel c).store ∧
      ∀ k, ReadBy t (s.chain k) ((s.scanUpTo t fuel c).store.chain k) := by
  induction fuel generalizing s c with
  | zero => exact ⟨.refl s, fun k => .refl⟩
  | succ fuel ih =>
    unfold scanUpTo
    dsimp only
    cases hitem : (c.next s.index).item with
    | none => exact ⟨.refl s, fun k => .refl⟩
    | some l =>
      have hget := visit_eq_get (t := t) (s := s) (Cursor.get?_of_next hs hitem)
      have hrechained := rechained_get s t l.key
      have hreads := readBy_get hs t l.key
      dsimp only
      rw [hget]
      cases hshown : shown l.key (s.get t l.key).1 with
      | some item => exact ⟨hrechained, hreads⟩
      | none =>
        obtain ⟨hrest, hmore⟩ := ih (hrechained.valid hs) (c.next s.index).cursor
        exact ⟨hrechained.trans hrest, fun k => (hreads k).trans (hmore k)⟩

/-! ### Writing -/

/-- Making sure that a key has a chain changes no chain. -/
theorem chain_getOrInsert (hs : s.index.Valid) (key : Key) :
    (s.index.getOrInsert key fun _ => .empty).value = s.chain key ∧
      s.Rechained { s with index := (s.index.getOrInsert key fun _ => .empty).written.tree } ∧
      ∀ k, (s.index.getOrInsert key fun _ => .empty).written.tree.get? k =
        if k = key then some (s.chain key) else s.chain? k := by
  obtain ⟨-, hcase⟩ := hs.getOrInsert key fun _ => Chain.empty
  cases hget : s.index.get? key with
  | some c =>
    rw [hget] at hcase
    obtain ⟨hvalue, -, htree⟩ := hcase
    have hchain : s.chain key = c := chain_eq_of_chain? hget
    refine ⟨hvalue.trans hchain.symm, ⟨fun h => ?_, rfl, rfl, rfl⟩, ?_⟩
    · show Tree.Valid _
      rw [htree]
      exact h
    · intro k
      rw [htree, hchain]
      split
      · rename_i hk
        rw [hk, hget]
      · rfl
  | none =>
    rw [hget] at hcase
    obtain ⟨hvalue, -, hedit, -⟩ := hcase
    have hchain : s.chain key = .empty := by simp [chain, Store.chain?, hget]
    refine ⟨hvalue.trans hchain.symm, ⟨fun _ => hedit.valid, rfl, rfl, rfl⟩, ?_⟩
    intro k
    rw [hedit.get? hs, hchain, Function.update_apply]
    rfl

/-- Everything that setting a key can come to: it is refused and nothing changes, the first write
    installs a pending version, or another write exchanges it. -/
theorem set_cases (hs : s.index.Valid) (t : Txn V) (key : Key) (value : V) :
    s.Rechained (s.set t key value).store ∧
      ((∃ e, (s.set t key value).verdict = .error e ∧ (s.set t key value).txn = t ∧
          (s.set t key value).store.chain = s.chain) ∨
        (∃ c i, (s.set t key value).verdict = .ok () ∧ t.pending? key = none ∧
          (s.chain key).install t.id t.readTs value = .ok (c, i) ∧
          (s.set t key value).txn = t.stage key ⟨i, value⟩ ∧
          (s.set t key value).store.chain = Function.update s.chain key c) ∨
        ∃ p c i, (s.set t key value).verdict = .ok () ∧ t.pending? key = some p ∧
          (s.chain key).supersede p.installed value = some (c, i) ∧
          (s.set t key value).txn = t.stage key ⟨i, value⟩ ∧
          (s.set t key value).store.chain = Function.update s.chain key c) := by
  unfold Store.set
  split
  · cases hp : t.pending? key with
    | some p =>
      dsimp only
      unfold setAgain
      cases hc : s.chain? key with
      | none => exact ⟨.refl s, Or.inl ⟨.contended, rfl, rfl, rfl⟩⟩
      | some c =>
        rw [Option.bind_some]
        cases hsup : c.supersede p.installed value with
        | none => exact ⟨.refl s, Or.inl ⟨.contended, rfl, rfl, rfl⟩⟩
        | some r =>
          obtain ⟨c', i⟩ := r
          have hchain := chain_updateChain hs key (f := fun _ => c') (Or.inr (by simp [hc]))
          refine ⟨rechained_updateChain s key _, Or.inr (Or.inr ⟨p, c', i, rfl, rfl, ?_, rfl, hchain⟩)⟩
          rw [chain_eq_of_chain? hc]
          exact hsup
    | none =>
      obtain ⟨hvalue, hrechained, hget⟩ := chain_getOrInsert hs key
      have hsame : ({ s with index := (s.index.getOrInsert key fun _ => .empty).written.tree } :
          Store V).chain = s.chain := by
        funext k
        unfold chain Store.chain?
        rw [hget k]
        split
        · rename_i hk
          rw [hk]
          rfl
        · rfl
      dsimp only
      unfold setFirst
      dsimp only
      rw [hvalue]
      cases hinst : (s.chain key).install t.id t.readTs value with
      | error e => exact ⟨hrechained, Or.inl ⟨e, rfl, rfl, hsame⟩⟩
      | ok r =>
        obtain ⟨c, i⟩ := r
        have hsome : (({ s with index := (s.index.getOrInsert key fun _ => .empty).written.tree } :
            Store V).chain? key).isSome := by
          unfold Store.chain?
          rw [hget key]
          simp
        have hchain := chain_updateChain (hrechained.valid hs) key (f := fun _ => c) (Or.inr hsome)
        rw [hsame] at hchain
        exact ⟨hrechained.trans (rechained_updateChain _ key _),
          Or.inr (Or.inl ⟨c, i, rfl, rfl, rfl, rfl, hchain⟩)⟩
  · exact ⟨.refl s, Or.inl ⟨.readOnly, rfl, rfl, rfl⟩⟩

/-- A transaction stays the same one when it writes. -/
theorem txn_set (s : Store V) (t : Txn V) (key : Key) (value : V) :
    (s.set t key value).txn.id = t.id ∧ (s.set t key value).txn.readTs = t.readTs := by
  unfold Store.set setAgain setFirst
  split
  · split
    · split <;> exact ⟨rfl, rfl⟩
    · dsimp only
      split <;> exact ⟨rfl, rfl⟩
  · exact ⟨rfl, rfl⟩

/-! ### Ending -/

/-- Changing the chains of the keys that were written, one after the other. -/
theorem chain_foldl_updateChain {f : Pending V → Chain V → Chain V} (hf : ∀ p, f p .empty = .empty)
    {writes : List (Key × Pending V)} (hs : s.index.Valid) (hw : (writes.map Prod.fst).Nodup) :
    s.Rechained (writes.foldl (fun s w => s.updateChain w.1 (f w.2)) s) ∧
      ∀ k, (writes.foldl (fun s w => s.updateChain w.1 (f w.2)) s).chain k =
        match Bindings.find writes k with
        | none => s.chain k
        | some p => f p (s.chain k) := by
  induction writes generalizing s with
  | nil => exact ⟨.refl s, fun k => rfl⟩
  | cons w writes ih =>
    obtain ⟨hnot, hw⟩ := List.nodup_cons.1 hw
    have hrechained := rechained_updateChain s w.1 (f w.2)
    have hchain := chain_updateChain hs w.1 (Or.inl (hf w.2))
    obtain ⟨hrest, hmore⟩ := ih (hrechained.valid hs) hw
    refine ⟨hrechained.trans hrest, ?_⟩
    intro k
    rw [List.foldl_cons, hmore k, hchain]
    rw [Bindings.find_cons]
    by_cases hk : k = w.1
    · subst hk
      rw [Bindings.find_eq_none_iff.2 hnot, if_pos rfl, Function.update_self]
    · rw [if_neg hk, Function.update_of_ne hk]

theorem publish_spec (hs : s.index.Valid) (hw : (t.writes.map Prod.fst).Nodup) (ts : Timestamp) :
    s.Rechained (s.publish ts t.writes) ∧ ∀ k, (s.publish ts t.writes).chain k =
      match t.pending? k with
      | none => s.chain k
      | some p => (s.chain k).commit p.installed ts :=
  chain_foldl_updateChain (f := fun p c => c.commit p.installed ts) (fun _ => rfl) hs hw

theorem withdraw_spec (hs : s.index.Valid) (hw : (t.writes.map Prod.fst).Nodup) :
    s.Rechained (s.withdraw t.writes) ∧ ∀ k, (s.withdraw t.writes).chain k =
      match t.pending? k with
      | none => s.chain k
      | some p => (s.chain k).abort p.installed :=
  chain_foldl_updateChain (f := fun p c => c.abort p.installed) (fun _ => rfl) hs hw

/-! ### Trimming -/

theorem trimChain_spec (hs : s.index.Valid) (key : Key) (safepoint : Timestamp) :
    s.Rechained (s.trimChain key safepoint).1 ∧
      ∀ k, (s.trimChain key safepoint).1.chain k = s.chain k ∨
        (s.trimChain key safepoint).1.chain k = (s.chain k).pruned safepoint := by
  unfold trimChain
  cases hc : s.chain? key with
  | none => exact ⟨.refl s, fun k => Or.inl rfl⟩
  | some c =>
    dsimp only
    split
    · exact ⟨.refl s, fun k => Or.inl rfl⟩
    · refine ⟨rechained_updateChain s key _, ?_⟩
      intro k
      have hchain := chain_updateChain hs key (f := fun _ => (c.trim safepoint).1)
        (Or.inr (by simp [hc]))
      rw [hchain]
      by_cases hk : k = key
      · subst hk
        rw [Function.update_self, chain_eq_of_chain? hc]
        exact Or.inr rfl
      · rw [Function.update_of_ne hk]
        exact Or.inl rfl

/-- Trimming the chains of any keys, one after the other. -/
theorem foldl_trimChain_spec (hs : s.index.Valid) (safepoint : Timestamp) (keys : List Key) :
    s.Rechained (keys.foldl (fun s key => (s.trimChain key safepoint).1) s) ∧
      ∀ k, (keys.foldl (fun s key => (s.trimChain key safepoint).1) s).chain k = s.chain k ∨
        (keys.foldl (fun s key => (s.trimChain key safepoint).1) s).chain k =
          (s.chain k).pruned safepoint := by
  induction keys generalizing s with
  | nil => exact ⟨.refl s, fun k => Or.inl rfl⟩
  | cons key keys ih =>
    obtain ⟨hrechained, hchain⟩ := trimChain_spec hs key safepoint
    obtain ⟨hrest, hmore⟩ := ih (hrechained.valid hs)
    refine ⟨hrechained.trans hrest, ?_⟩
    intro k
    rw [List.foldl_cons]
    rcases hmore k with hmore | hmore
    · rw [hmore]
      exact hchain k
    · rcases hchain k with hchain | hchain
      · exact Or.inr (hmore.trans (by rw [hchain]))
      · exact Or.inr (hmore.trans (by rw [hchain, Chain.pruned_pruned le_rfl]))

theorem sweepKeys_fst (s : Store V) (g : SweepReport) (keys : List Key) :
    (s.sweepKeys g keys).1 = keys.foldl (fun s key => (s.trimChain key g.safepoint).1) s := by
  unfold sweepKeys
  have hgen : ∀ g' : SweepReport, (keys.foldl (fun acc key =>
      ((acc.1.trimChain key g.safepoint).1, acc.2.visited (acc.1.trimChain key g.safepoint).2))
        (s, g')).1 = keys.foldl (fun s key => (s.trimChain key g.safepoint).1) s := by
    induction keys generalizing s with
    | nil => exact fun _ => rfl
    | cons key keys ih => exact fun g' => ih _ _
  exact hgen g

end Store

end RadixStore
