import Mathlib
import RadixStore.Proofs.Chain.Trim
import RadixStore.Proofs.Names
import RadixStore.Proofs.Tree.Contents
import RadixStore.Store.Txn

/-!
# The index and the pending writes

Each pending write of an open transaction is a claim on its key. The chain of a key has a draft
exactly when there is a claim on the key, then there is only one, and the draft is what it says. The
operations of transactions on the chains keep it so.
-/

namespace RadixStore

variable {V : Type}

/-! ### Claims -/

/-- A pending write of an open transaction. -/
structure Claim (V : Type) where
  owner : TxnId
  readTs : Timestamp
  pending : Pending V

/-- What the transaction has pending for `key`. -/
def Txn.claim? (t : Txn V) (key : Key) : Option (Claim V) :=
  (t.pending? key).map fun p => ⟨t.id, t.readTs, p⟩

/-- All claims on `key` of the transactions `open`. -/
def claims (txns : Multiset (Txn V)) (key : Key) : Multiset (Claim V) :=
  txns.filterMap fun t => t.claim? key

/-- The claims on the key are those that go with this draft and this history: none without a draft,
    and one with it, by a transaction that does not read below the newest version. -/
inductive Backed (claims : Multiset (Claim V)) : Option (Draft V) → List (Version V) → Prop
  | settled {hist : List (Version V)} : claims = 0 → Backed claims none hist
  | drafted {d : Draft V} {hist : List (Version V)} {readTs : Timestamp} :
      claims = {⟨d.owner, readTs, ⟨installedOn d.serial hist, d.value⟩⟩} →
      (∀ head ∈ hist.head?, head.beginTs ≤ readTs) → Backed claims (some d) hist

section Claims

variable (txns : Multiset (Txn V)) {t : Txn V} {key other : Key} {p : Pending V}

theorem claims_cons_of_none (h : t.pending? key = none) :
    claims (t ::ₘ txns) key = claims txns key := by
  simp [claims, Txn.claim?, h]

theorem claims_cons_of_some (h : t.pending? key = some p) :
    claims (t ::ₘ txns) key = ⟨t.id, t.readTs, p⟩ ::ₘ claims txns key := by
  simp [claims, Txn.claim?, h]

@[simp] theorem Txn.pending?_stage_self (t : Txn V) (key : Key) (p : Pending V) :
    (t.stage key p).pending? key = some p := by
  simp [stage, pending?]

theorem Txn.pending?_stage_of_ne (t : Txn V) (p : Pending V) (h : other ≠ key) :
    (t.stage key p).pending? other = t.pending? other :=
  Bindings.find_bind_of_ne t.writes p h

/-- Every write that the transaction remembers is pending, as no key occurs twice. -/
theorem Txn.pending?_of_mem (t : Txn V) (hw : (t.writes.map Prod.fst).Nodup) {w : Key × Pending V}
    (h : w ∈ t.writes) : t.pending? w.1 = some w.2 :=
  (Bindings.mem_iff_find hw).1 h

/-- Staging a write changes the claims on no other key. -/
theorem claims_stage_of_ne (t : Txn V) (p : Pending V) (h : other ≠ key) :
    claims (t.stage key p ::ₘ txns) other = claims (t ::ₘ txns) other := by
  have hpending := Txn.pending?_stage_of_ne t p h
  cases hp : t.pending? other with
  | none => rw [claims_cons_of_none txns hp, claims_cons_of_none txns (hpending.trans hp)]
  | some q =>
    rw [claims_cons_of_some txns hp, claims_cons_of_some txns (hpending.trans hp)]
    rfl

/-- What backs a draft is the number and the beginning of the newest version. -/
theorem Backed.congr {draft : Option (Draft V)} {hist hist' : List (Version V)}
    {all : Multiset (Claim V)} (h : Backed all draft hist)
    (hserial : hist'.head?.map Version.serial = hist.head?.map Version.serial)
    (hbegin : hist'.head?.map Version.beginTs = hist.head?.map Version.beginTs) :
    Backed all draft hist' := by
  cases h with
  | settled hnone => exact .settled hnone
  | @drafted d _ readTs hone hle =>
    have hsame : installedOn d.serial hist' = installedOn d.serial hist := by
      rw [installedOn, installedOn, hserial]
    refine .drafted (hsame ▸ hone) ?_
    · intro head hhead
      have hmem : head.beginTs ∈ hist'.head?.map Version.beginTs := Option.mem_map_of_mem _ hhead
      rw [hbegin] at hmem
      obtain ⟨v, hv, heq⟩ := Option.mem_map.1 hmem
      exact heq ▸ hle v hv

/-- With a claim of its own on a key, a transaction is the only one, and the chain has its draft. -/
theorem Backed.own {txns : Multiset (Txn V)} {draft : Option (Draft V)} {hist : List (Version V)}
    (h : Backed (claims (t ::ₘ txns) key) draft hist) (hp : t.pending? key = some p) :
    ∃ serial, draft = some ⟨t.id, serial, p.value⟩ ∧ p.installed = installedOn serial hist ∧
      claims txns key = 0 ∧ ∀ head ∈ hist.head?, head.beginTs ≤ t.readTs := by
  rw [claims_cons_of_some txns hp] at h
  cases h with
  | settled hnone => simp at hnone
  | @drafted d _ readTs hone hbegin =>
    obtain ⟨hclaim, hrest⟩ := (Multiset.singleton_eq_cons_iff _).1 hone.symm
    obtain ⟨howner, rfl, rfl⟩ := Claim.mk.inj hclaim
    exact ⟨d.serial, by rw [← howner], rfl, hrest, hbegin⟩

end Claims

end RadixStore
