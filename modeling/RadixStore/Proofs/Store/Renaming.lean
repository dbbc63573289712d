import Mathlib
import RadixStore.Proofs.Chain.Renaming
import RadixStore.Proofs.Cursor.Map
import RadixStore.Proofs.Store.Exits
import RadixStore.Store.Scan

/-!
# Stores under other identities

If every transaction goes by another identity, and no two by the same, then a store answers
everything as before, and what is left is the same store with other identities in it. Where nobody is
told from anybody else, as in commits and sweeps, two may even go by the same.
-/

namespace RadixStore

variable {V : Type} {ρ : TxnId → TxnId}

/-- The transaction under another identity. -/
def Txn.renamed (ρ : TxnId → TxnId) (t : Txn V) : Txn V :=
  { t with id := ρ t.id }

@[simp] theorem Txn.pending?_renamed (t : Txn V) (key : Key) :
    (t.renamed ρ).pending? key = t.pending? key := rfl

namespace Store

/-- The store with all identities exchanged. -/
def renamed (ρ : TxnId → TxnId) (s : Store V) : Store V :=
  { s with index := s.index.map (Chain.renamed ρ) }

@[simp] theorem safepoint_renamed (s : Store V) : (s.renamed ρ).safepoint = s.safepoint := rfl

theorem renamed_empty (config : Config) : (empty config : Store V).renamed ρ = empty config := by
  unfold renamed empty Tree.map Tree.empty
  rw [Branch.map_empty]

theorem chain?_renamed (s : Store V) (key : Key) :
    (s.renamed ρ).chain? key = (s.chain? key).map (Chain.renamed ρ) :=
  Tree.get?_map _ _ _

theorem updateChain_renamed {f : Chain V → Chain V} {f' : Chain V → Chain V}
    (hf : ∀ c, f' (c.renamed ρ) = (f c).renamed ρ) (s : Store V) (key : Key) :
    (s.renamed ρ).updateChain key f' = (s.updateChain key f).renamed ρ :=
  congrArg (fun index => (⟨index, s.active, s.watermark, s.config⟩ : Store V))
    (Tree.update_map hf s.index key)

theorem putChain_renamed (s : Store V) (key : Key) (c : Chain V) :
    (s.renamed ρ).updateChain key (fun _ => c.renamed ρ) =
      (s.updateChain key fun _ => c).renamed ρ :=
  updateChain_renamed (f := fun _ => c) (fun _ => rfl) s key

/-! ### Reading -/

section Reading

variable (hρ : ρ.Injective)

include hρ

theorem lookAt_renamed (s : Store V) (t : Txn V) (key : Key) (c : Chain V) :
    (s.renamed ρ).lookAt (t.renamed ρ) key (c.renamed ρ) =
      ((s.lookAt t key c).1, (s.lookAt t key c).2.renamed ρ) := by
  have hlook : (c.renamed ρ).look (t.renamed ρ).readTs (t.renamed ρ).id = _ :=
    Chain.look_renamed hρ c t.readTs t.id
  unfold lookAt
  rw [hlook]
  exact Prod.ext rfl (putChain_renamed s key _)

theorem get_renamed (s : Store V) (t : Txn V) (key : Key) :
    (s.renamed ρ).get (t.renamed ρ) key = ((s.get t key).1, (s.get t key).2.renamed ρ) := by
  unfold Store.get
  rw [Txn.pending?_renamed, chain?_renamed]
  cases t.pending? key with
  | some p => rfl
  | none =>
    cases s.chain? key with
    | none => rfl
    | some c => exact lookAt_renamed hρ s t key c

theorem visit_renamed (s : Store V) (t : Txn V) (l : Leaf (Chain V)) :
    (s.renamed ρ).visit (t.renamed ρ) (l.map (Chain.renamed ρ)) =
      ((s.visit t l).1, (s.visit t l).2.renamed ρ) := by
  have hlook : (s.renamed ρ).lookAt (t.renamed ρ) l.key (l.map (Chain.renamed ρ)).value = _ :=
    lookAt_renamed hρ s t l.key l.value
  have hkey : (l.map (Chain.renamed ρ)).key = l.key := rfl
  unfold visit
  rw [hkey, Txn.pending?_renamed, hlook]
  cases t.pending? l.key with
  | some p => rfl
  | none => rcases s.lookAt t l.key l.value with ⟨(_ | _ | _ | _ | _ | _) | value, s'⟩ <;> rfl

theorem scanUpTo_renamed (fuel : Nat) (s : Store V) (t : Txn V) (c : Cursor) :
    (s.renamed ρ).scanUpTo (t.renamed ρ) fuel c =
      ⟨(s.scanUpTo t fuel c).item, (s.scanUpTo t fuel c).cursor,
        (s.scanUpTo t fuel c).store.renamed ρ⟩ := by
  induction fuel generalizing s c with
  | zero => rfl
  | succ fuel ih =>
    obtain ⟨hitem, hcursor⟩ := c.next_map (Chain.renamed ρ) s.index
    have hitem : (c.next (s.renamed ρ).index).item = _ := hitem
    have hcursor : (c.next (s.renamed ρ).index).cursor = _ := hcursor
    unfold scanUpTo
    dsimp only
    rw [hitem, hcursor]
    cases (c.next s.index).item with
    | none => rfl
    | some l =>
      simp only [Option.map_some, visit_renamed hρ]
      rcases s.visit t l with ⟨_ | item, s'⟩
      · exact ih s' _
      · rfl

theorem scanNext_renamed (s : Store V) (t : Txn V) (c : Cursor) :
    (s.renamed ρ).scanNext (t.renamed ρ) c =
      ⟨(s.scanNext t c).item, (s.scanNext t c).cursor, (s.scanNext t c).store.renamed ρ⟩ :=
  scanUpTo_renamed hρ (s.size + 1) s t c

end Reading

/-! ### Writing -/

theorem setAgain_renamed (s : Store V) (t : Txn V) (key : Key) (p : Pending V) (value : V) :
    (s.renamed ρ).setAgain (t.renamed ρ) key p value =
      ⟨(s.setAgain t key p value).verdict, (s.setAgain t key p value).store.renamed ρ,
        (s.setAgain t key p value).txn.renamed ρ⟩ := by
  unfold setAgain
  rw [chain?_renamed]
  cases s.chain? key with
  | none => rfl
  | some c =>
    simp only [Option.map_some, Option.bind_some, Chain.supersede_renamed]
    cases c.supersede p.installed value with
    | none => rfl
    | some r =>
      simp only [Option.map_some, putChain_renamed]
      rfl

theorem setFirst_renamed (hρ : ρ.Injective) (s : Store V) (t : Txn V) (key : Key) (value : V) :
    (s.renamed ρ).setFirst (t.renamed ρ) key value =
      ⟨(s.setFirst t key value).verdict, (s.setFirst t key value).store.renamed ρ,
        (s.setFirst t key value).txn.renamed ρ⟩ := by
  obtain ⟨hvalue, hwritten⟩ := Tree.getOrInsert_map (Chain.renamed ρ) s.index key
    (fun _ => Chain.empty) (fun _ => Chain.empty) Chain.renamed_empty.symm
  have hensured : ({ s.renamed ρ with index :=
      ((s.renamed ρ).index.getOrInsert key fun _ => .empty).written.tree } : Store V) =
      ({ s with index := (s.index.getOrInsert key fun _ => .empty).written.tree } :
        Store V).renamed ρ := by
    have htree := congrArg Written.tree hwritten
    exact congrArg (fun index => (⟨index, s.active, s.watermark, s.config⟩ : Store V)) htree
  have hvalue : ((s.renamed ρ).index.getOrInsert key fun _ => .empty).value =
      (s.index.getOrInsert key fun _ => .empty).value.renamed ρ := hvalue
  have hinstall : ∀ c : Chain V, (c.renamed ρ).install (t.renamed ρ).id (t.renamed ρ).readTs value =
      (c.install t.id t.readTs value).map fun r => (r.1.renamed ρ, r.2) :=
    fun c => Chain.install_renamed hρ c t.id t.readTs value
  unfold setFirst
  dsimp only
  rw [hensured, hvalue, hinstall]
  cases (s.index.getOrInsert key fun _ => Chain.empty).value.install t.id t.readTs value with
  | error e => rfl
  | ok r =>
    simp only [Except.map, putChain_renamed]
    rfl

theorem set_renamed (hρ : ρ.Injective) (s : Store V) (t : Txn V) (key : Key) (value : V) :
    (s.renamed ρ).set (t.renamed ρ) key value =
      ⟨(s.set t key value).verdict, (s.set t key value).store.renamed ρ,
        (s.set t key value).txn.renamed ρ⟩ := by
  have hupdate : (t.renamed ρ).update = t.update := rfl
  unfold Store.set
  rw [hupdate, Txn.pending?_renamed]
  split
  · cases t.pending? key with
    | some p => exact setAgain_renamed s t key p value
    | none => exact setFirst_renamed hρ s t key value
  · rfl

/-! ### Trimming -/

theorem trimChain_renamed (s : Store V) (key : Key) (safepoint : Timestamp) :
    (s.renamed ρ).trimChain key safepoint =
      ((s.trimChain key safepoint).1.renamed ρ, (s.trimChain key safepoint).2) := by
  have hconfig : (s.renamed ρ).config = s.config := rfl
  unfold trimChain
  rw [chain?_renamed, hconfig]
  cases s.chain? key with
  | none => rfl
  | some c =>
    simp only [Option.map_some, Chain.length_renamed, Chain.trim_renamed]
    split
    · rfl
    · rw [putChain_renamed]

theorem trimChains_renamed (s : Store V) (safepoint : Timestamp) (keys : List Key) :
    (s.renamed ρ).trimChains safepoint keys =
      ((s.trimChains safepoint keys).1.renamed ρ, (s.trimChains safepoint keys).2) := by
  unfold trimChains
  refine @List.foldl_hom _ _ _ (fun acc : Store V × Nat => (acc.1.renamed ρ, acc.2)) _ _ keys (s, 0) ?_
  intro acc key
  simp only [trimChain_renamed]

theorem sweepKeys_renamed (s : Store V) (g : SweepReport) (keys : List Key) :
    (s.renamed ρ).sweepKeys g keys =
      ((s.sweepKeys g keys).1.renamed ρ, (s.sweepKeys g keys).2) := by
  unfold sweepKeys
  refine @List.foldl_hom _ _ _ (fun acc : Store V × SweepReport => (acc.1.renamed ρ, acc.2)) _ _ keys
    (s, g) ?_
  intro acc key
  simp only [trimChain_renamed]

theorem gc_renamed (s : Store V) : (s.renamed ρ).gc = (s.gc.1.renamed ρ, s.gc.2) := by
  have hkeys : ((s.renamed ρ).index.scan none none .forward none).map Leaf.key =
      (s.index.scan none none .forward none).map Leaf.key := by
    have hscan : (s.renamed ρ).index.scan none none .forward none = _ :=
      Tree.scan_map (Chain.renamed ρ) s.index none none .forward none
    rw [hscan, List.map_map]
    rfl
  unfold Store.gc
  rw [hkeys, safepoint_renamed, sweepKeys_renamed]

/-! ### Opening and ending -/

theorem openTxn_renamed (s : Store V) (id : TxnId) (readTs : Timestamp) (update : Bool) :
    (s.renamed ρ).openTxn (ρ id) readTs update =
      ((s.openTxn id readTs update).1.renamed ρ, (s.openTxn id readTs update).2.renamed ρ) := rfl

theorem publish_renamed (s : Store V) (ts : Timestamp) (writes : List (Key × Pending V)) :
    (s.renamed ρ).publish ts writes = (s.publish ts writes).renamed ρ :=
  List.foldl_hom (renamed ρ) fun s w =>
    updateChain_renamed (fun c => c.commit_renamed w.2.installed ts) s w.1

theorem withdraw_renamed (s : Store V) (writes : List (Key × Pending V)) :
    (s.renamed ρ).withdraw writes = (s.withdraw writes).renamed ρ :=
  List.foldl_hom (renamed ρ) fun s w =>
    updateChain_renamed (fun c => c.abort_renamed w.2.installed) s w.1

theorem discard_renamed (s : Store V) (t : Txn V) :
    (s.renamed ρ).discard (t.renamed ρ) = (s.discard t).renamed ρ := by
  rw [discard_eq, discard_eq]
  exact congrArg (closeTxn · t) (withdraw_renamed s t.writes)

theorem commit_renamed (s : Store V) (t : Txn V) (ts : Timestamp) :
    (s.renamed ρ).commit (t.renamed ρ) ts =
      ⟨(s.commit t ts).verdict, (s.commit t ts).store.renamed ρ, (s.commit t ts).reclaimed⟩ := by
  have hreadTs : (t.renamed ρ).readTs = t.readTs := rfl
  have hpublished : ((s.renamed ρ).publish ts (t.renamed ρ).writes).closeTxn (t.renamed ρ) =
      ((s.publish ts t.writes).closeTxn t).renamed ρ :=
    congrArg (closeTxn · t) (publish_renamed s ts t.writes)
  have hconfig : (((s.publish ts t.writes).closeTxn t).renamed ρ).config =
      ((s.publish ts t.writes).closeTxn t).config := rfl
  by_cases hts : ts < t.readTs
  · rw [commit_of_lt hts, commit_of_lt (hreadTs ▸ hts), discard_renamed]
  · rw [commit_of_le (not_lt.1 hts), commit_of_le (hreadTs ▸ not_lt.1 hts)]
    dsimp only
    rw [hpublished, hconfig, safepoint_renamed, trimChains_renamed]
    split <;> rfl

end Store

end RadixStore
