import Mathlib
import RadixStore.Store.Basic

/-!
# The registry and the safepoint

The registry stands for the multiset of the timestamps at which transactions are open. As it is kept
in ascending order, the oldest timestamp is the least member, and the safepoint is the greatest
timestamp that neither the watermark nor a member falls below.
-/

namespace RadixStore

variable {V : Type}

namespace Registry

variable {r : Registry} {ts : Timestamp}

/-- The timestamps of the entries, each as often as it is counted. -/
def membersIn (counts : List (Timestamp × Nat)) : Multiset Timestamp :=
  (counts.map fun e => Multiset.replicate e.2 e.1).sum

/-- The timestamps at which transactions are open. -/
def members (r : Registry) : Multiset Timestamp :=
  membersIn r.counts

/-- Timestamps ascend, and each is counted at least once. -/
structure Ordered (r : Registry) : Prop where
  ascending : r.counts.Pairwise fun a b => a.1 < b.1
  counted : ∀ e ∈ r.counts, 0 < e.2

@[simp] theorem membersIn_nil : membersIn [] = 0 := rfl

@[simp] theorem membersIn_cons (e : Timestamp × Nat) (es : List (Timestamp × Nat)) :
    membersIn (e :: es) = Multiset.replicate e.2 e.1 + membersIn es := by
  simp [membersIn]

theorem mem_membersIn {counts : List (Timestamp × Nat)} :
    ts ∈ membersIn counts ↔ ∃ e ∈ counts, 0 < e.2 ∧ e.1 = ts := by
  induction counts with
  | nil => simp
  | cons e es ih =>
    simp [ih, Multiset.mem_replicate, Nat.pos_iff_ne_zero, eq_comm]

@[simp] theorem members_empty : empty.members = 0 := rfl

theorem ordered_empty : empty.Ordered :=
  ⟨List.Pairwise.nil, by simp [empty]⟩

/-- The entries count the open transactions. -/
theorem count_eq_card (r : Registry) : r.count = r.members.card := by
  obtain ⟨counts⟩ := r
  unfold count members
  induction counts with
  | nil => rfl
  | cons e es ih =>
    rw [membersIn_cons, Multiset.card_add, Multiset.card_replicate, ← ih]
    rfl

/-! ### Entering and leaving -/

theorem membersIn_enterIn (ts : Timestamp) (counts : List (Timestamp × Nat)) :
    membersIn (enterIn ts counts) = ts ::ₘ membersIn counts := by
  induction counts with
  | nil => simp [enterIn]
  | cons e es ih =>
    unfold enterIn
    split
    · simp
    · split
      · rename_i heq
        subst heq
        simp [Multiset.replicate_succ]
      · simp [ih]

theorem members_enter (r : Registry) (ts : Timestamp) : (r.enter ts).members = ts ::ₘ r.members :=
  membersIn_enterIn ts r.counts

theorem membersIn_leaveIn {counts : List (Timestamp × Nat)} (hts : ts ∈ membersIn counts)
    (hcounted : ∀ e ∈ counts, 0 < e.2) :
    membersIn counts = ts ::ₘ membersIn (leaveIn ts counts) := by
  induction counts with
  | nil => simp at hts
  | cons e es ih =>
    have hpos : 0 < e.2 := hcounted e (by simp)
    unfold leaveIn
    split
    · rename_i heq
      subst heq
      obtain ⟨m, hm⟩ := Nat.exists_eq_succ_of_ne_zero (ne_of_gt hpos)
      split
      · have hm : e.2 = 1 := by omega
        simp [hm]
      · simp [hm, Multiset.replicate_succ]
    · rename_i hne
      have hrest : ts ∈ membersIn es := by
        rw [membersIn_cons, Multiset.mem_add, Multiset.mem_replicate] at hts
        rcases hts with ⟨-, heq⟩ | hts
        · exact absurd heq hne
        · exact hts
      simp [ih hrest fun f hf => hcounted f (by simp [hf])]

theorem Ordered.members_leave (h : r.Ordered) (hts : ts ∈ r.members) :
    r.members = ts ::ₘ (r.leave ts).members :=
  membersIn_leaveIn hts h.counted

theorem mem_enterIn {counts : List (Timestamp × Nat)} {e : Timestamp × Nat}
    (he : e ∈ enterIn ts counts) : e.1 = ts ∧ 0 < e.2 ∨ e ∈ counts := by
  induction counts with
  | nil =>
    simp only [enterIn, List.mem_singleton] at he
    simp [he]
  | cons f fs ih =>
    unfold enterIn at he
    split at he
    · rcases List.mem_cons.1 he with rfl | he
      · simp
      · exact Or.inr he
    · split at he
      · rcases List.mem_cons.1 he with rfl | he
        · simp
        · exact Or.inr (by simp [he])
      · rcases List.mem_cons.1 he with rfl | he
        · simp
        · rcases ih he with hnew | hold
          · exact Or.inl hnew
          · exact Or.inr (by simp [hold])

theorem mem_leaveIn {counts : List (Timestamp × Nat)} {e : Timestamp × Nat}
    (he : e ∈ leaveIn ts counts) : ∃ f ∈ counts, f.1 = e.1 ∧ (e.2 = f.2 ∨ 0 < e.2) := by
  induction counts with
  | nil => simp [leaveIn] at he
  | cons f fs ih =>
    unfold leaveIn at he
    split at he
    · rename_i heq
      split at he
      · exact ⟨e, by simp [he], rfl, Or.inl rfl⟩
      · rcases List.mem_cons.1 he with rfl | he
        · exact ⟨f, by simp, heq.symm, Or.inr (by simp; omega)⟩
        · exact ⟨e, by simp [he], rfl, Or.inl rfl⟩
    · rcases List.mem_cons.1 he with rfl | he
      · exact ⟨e, by simp, rfl, Or.inl rfl⟩
      · obtain ⟨g, hg, hsame⟩ := ih he
        exact ⟨g, by simp [hg], hsame⟩

theorem Ordered.enter (h : r.Ordered) (ts : Timestamp) : (r.enter ts).Ordered := by
  obtain ⟨counts⟩ := r
  obtain ⟨hasc, hcounted⟩ := h
  constructor
  · show (enterIn ts counts).Pairwise _
    clear hcounted
    induction counts with
    | nil => simp [enterIn]
    | cons e es ih =>
      obtain ⟨he, hes⟩ := List.pairwise_cons.1 hasc
      unfold enterIn
      split
      · rename_i hlt
        refine List.pairwise_cons.2 ⟨?_, hasc⟩
        intro f hf
        rcases List.mem_cons.1 hf with rfl | hf
        · exact hlt
        · exact hlt.trans (he f hf)
      · split
        · rename_i heq
          exact List.pairwise_cons.2 ⟨fun f hf => heq ▸ he f hf, hes⟩
        · rename_i hle hne
          refine List.pairwise_cons.2 ⟨?_, ih hes⟩
          intro f hf
          rcases mem_enterIn hf with ⟨hf, -⟩ | hf
          · rw [hf]
            exact lt_of_le_of_ne (not_lt.1 hle) (Ne.symm hne)
          · exact he f hf
  · intro e he
    have he : e ∈ enterIn ts counts := he
    rcases mem_enterIn he with ⟨-, hpos⟩ | he
    · exact hpos
    · exact hcounted e he

theorem Ordered.leave (h : r.Ordered) (ts : Timestamp) : (r.leave ts).Ordered := by
  obtain ⟨counts⟩ := r
  obtain ⟨hasc, hcounted⟩ := h
  constructor
  · show (leaveIn ts counts).Pairwise _
    clear hcounted
    induction counts with
    | nil => simp [leaveIn]
    | cons e es ih =>
      obtain ⟨he, hes⟩ := List.pairwise_cons.1 hasc
      unfold leaveIn
      split
      · rename_i heq
        split
        · exact hes
        · exact List.pairwise_cons.2 ⟨fun f hf => heq ▸ he f hf, hes⟩
      · refine List.pairwise_cons.2 ⟨?_, ih hes⟩
        intro f hf
        obtain ⟨g, hg, hsame, -⟩ := mem_leaveIn hf
        exact hsame ▸ he g hg
  · intro e he
    have he : e ∈ leaveIn ts counts := he
    obtain ⟨f, hf, -, hcount⟩ := mem_leaveIn he
    rcases hcount with heq | hpos
    · exact heq ▸ hcounted f hf
    · exact hpos

/-! ### The oldest member -/

/-- Nothing falls below the oldest member, which is one. -/
theorem Ordered.le_oldest_iff (h : r.Ordered) {x : Timestamp} :
    (∀ oldest, r.oldest? = some oldest → x ≤ oldest) ↔ ∀ ts ∈ r.members, x ≤ ts := by
  obtain ⟨counts⟩ := r
  obtain ⟨hasc, hcounted⟩ := h
  cases counts with
  | nil => simp [oldest?, members]
  | cons e es =>
    have holdest : (⟨e :: es⟩ : Registry).oldest? = some e.1 := rfl
    constructor
    · intro hx ts hts
      have hx := hx _ holdest
      obtain ⟨f, hf, -, rfl⟩ := mem_membersIn.1 hts
      rcases List.mem_cons.1 hf with rfl | hf
      · exact hx
      · exact hx.trans (le_of_lt ((List.pairwise_cons.1 hasc).1 f hf))
    · intro hx oldest ho
      rw [holdest] at ho
      cases ho
      exact hx _ (mem_membersIn.2 ⟨e, by simp, hcounted e (by simp), rfl⟩)

theorem Ordered.oldest?_eq_some_iff (h : r.Ordered) :
    r.oldest? = some ts ↔ ts ∈ r.members ∧ ∀ other ∈ r.members, ts ≤ other := by
  constructor
  · intro holdest
    have hle : ∀ oldest, r.oldest? = some oldest → ts ≤ oldest := fun oldest ho =>
      (Option.some_inj.1 (holdest.symm.trans ho)).le
    obtain ⟨e, he, rfl⟩ := Option.map_eq_some_iff.1 holdest
    have hmem := List.mem_of_head? he
    exact ⟨mem_membersIn.2 ⟨e, hmem, h.counted e hmem, rfl⟩, h.le_oldest_iff.1 hle⟩
  · rintro ⟨hts, hle⟩
    obtain ⟨e, he, -, -⟩ := mem_membersIn.1 hts
    have hsome : r.oldest?.isSome := by
      cases hcounts : r.counts with
      | nil => simp [hcounts] at he
      | cons f fs => simp [oldest?, hcounts]
    obtain ⟨oldest, holdest⟩ := Option.isSome_iff_exists.1 hsome
    have hge : oldest ≤ ts := h.le_oldest_iff.1
      (fun other ho => (Option.some_inj.1 (holdest.symm.trans ho)).le) ts hts
    have hle : ts ≤ oldest := h.le_oldest_iff.2 hle oldest holdest
    rw [holdest, le_antisymm hge hle]

/-! ### The entries -/

theorem count_membersIn_cons (e : Timestamp × Nat) (es : List (Timestamp × Nat)) (ts : Timestamp) :
    (membersIn (e :: es)).count ts = (if e.1 = ts then e.2 else 0) + (membersIn es).count ts := by
  rw [membersIn_cons, Multiset.count_add, Multiset.count_replicate]

theorem mem_iff_count_membersIn {counts : List (Timestamp × Nat)} {n : Nat}
    (hasc : counts.Pairwise fun a b => a.1 < b.1) (hcounted : ∀ e ∈ counts, 0 < e.2) :
    (ts, n) ∈ counts ↔ 0 < n ∧ (membersIn counts).count ts = n := by
  induction counts with
  | nil =>
    simp only [List.not_mem_nil, membersIn_nil, Multiset.count_zero, false_iff]
    omega
  | cons e es ih =>
    obtain ⟨hlt, hasc⟩ := List.pairwise_cons.1 hasc
    obtain ⟨hpos, hcounted⟩ := List.forall_mem_cons.1 hcounted
    rw [List.mem_cons, ih hasc hcounted, count_membersIn_cons]
    by_cases hts : e.1 = ts
    · subst hts
      -- later entries are of later timestamps
      have hnone : (membersIn es).count e.1 = 0 := by
        rw [Multiset.count_eq_zero, mem_membersIn]
        rintro ⟨f, hf, -, heq⟩
        exact absurd (hlt f hf) (by simp [heq])
      rw [hnone, if_pos rfl, Prod.ext_iff]
      simp only [true_and]
      omega
    · have hne : (ts, n) ≠ e := fun heq => hts (congrArg Prod.fst heq).symm
      simp [hts, hne]

/-- The entry of a timestamp says how often it occurs, and there is none if it does not. -/
theorem Ordered.mem_counts_iff (h : r.Ordered) {n : Nat} :
    (ts, n) ∈ r.counts ↔ 0 < n ∧ r.members.count ts = n :=
  mem_iff_count_membersIn h.ascending h.counted

theorem Ordered.nodup (h : r.Ordered) : (r.counts.map Prod.fst).Nodup :=
  List.pairwise_map.2 (h.ascending.imp fun hlt => ne_of_lt hlt)

end Registry

/-! ### The safepoint -/

/-- The safepoint is the greatest timestamp that falls short neither of the watermark nor of any
    timestamp at which a transaction is open. -/
theorem Store.le_safepoint_iff {s : Store V} (h : s.active.Ordered) {x : Timestamp} :
    x ≤ s.safepoint ↔ x ≤ s.watermark ∧ ∀ ts ∈ s.active.members, x ≤ ts := by
  rw [← h.le_oldest_iff]
  unfold Store.safepoint
  cases s.active.oldest? with
  | none => simp
  | some oldest => simp [and_comm]

end RadixStore
