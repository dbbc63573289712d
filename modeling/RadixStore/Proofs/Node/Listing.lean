import Mathlib
import RadixStore.Node.Body

/-!
# Listings

A body of children says which child stands under each of the 256 bytes. Whatever the encoding, its
list of children is the listing of that function: the bytes that have a child, ascending. This
module says how a listing changes when the function changes at one byte, which is what the sorted
list of a small body does too.
-/

namespace RadixStore

variable {α : Type}

/-! ### The 256 bytes -/

theorem mem_allBytes (b : UInt8) : b ∈ allBytes :=
  List.mem_map.2 ⟨b.toNat, List.mem_range.2 b.toNat_lt, UInt8.ofNat_toNat⟩

theorem allBytes_ascending : allBytes.Pairwise (· < ·) := by
  unfold allBytes
  rw [List.pairwise_map]
  refine List.Pairwise.imp_of_mem ?_ List.pairwise_lt_range
  intro a b ha hb hab
  have ha : a < 256 := List.mem_range.1 ha
  have hb : b < 256 := List.mem_range.1 hb
  rw [UInt8.lt_iff_toNat_lt, UInt8.toNat_ofNat', UInt8.toNat_ofNat', Nat.mod_eq_of_lt ha,
    Nat.mod_eq_of_lt hb]
  exact hab

theorem allBytes_length : allBytes.length = 256 := by
  simp [allBytes]

theorem getElem_allBytes {i : Nat} (h : i < allBytes.length) : allBytes[i] = UInt8.ofNat i := by
  simp [allBytes]

theorem mem_bytesFrom {a b : UInt8} : a ∈ bytesFrom b ↔ b ≤ a := by
  unfold bytesFrom
  rw [List.mem_drop_iff_getElem, UInt8.le_iff_toNat_le]
  constructor
  · rintro ⟨i, hi, rfl⟩
    rw [allBytes_length] at hi
    rw [getElem_allBytes, UInt8.toNat_ofNat', Nat.mod_eq_of_lt (by omega)]
    omega
  · intro h
    have ha := a.toNat_lt
    refine ⟨a.toNat - b.toNat, ?_, ?_⟩
    · rw [allBytes_length]
      omega
    · rw [getElem_allBytes, Nat.add_sub_cancel' h, UInt8.ofNat_toNat]

theorem mem_bytesUpTo {a b : UInt8} : a ∈ bytesUpTo b ↔ a ≤ b := by
  unfold bytesUpTo
  rw [List.mem_reverse, List.mem_take_iff_getElem, UInt8.le_iff_toNat_le]
  constructor
  · rintro ⟨i, hi, rfl⟩
    have hi : i < b.toNat + 1 ∧ i < allBytes.length := by omega
    rw [allBytes_length] at hi
    rw [getElem_allBytes, UInt8.toNat_ofNat', Nat.mod_eq_of_lt hi.2]
    omega
  · intro h
    have ha := a.toNat_lt
    refine ⟨a.toNat, ?_, ?_⟩
    · rw [allBytes_length]
      omega
    · rw [getElem_allBytes, UInt8.ofNat_toNat]

theorem bytesFrom_ascending (b : UInt8) : (bytesFrom b).Pairwise (· < ·) :=
  allBytes_ascending.sublist (List.drop_sublist _ _)

theorem bytesUpTo_descending (b : UInt8) : (bytesUpTo b).Pairwise (· > ·) := by
  unfold bytesUpTo
  rw [List.pairwise_reverse]
  exact allBytes_ascending.sublist (List.take_sublist _ _)

/-! ### The listing of a function -/

/-- The child that `f` gives under `b`, together with its byte. -/
def labelled (f : UInt8 → Option α) (b : UInt8) : Option (UInt8 × α) :=
  (f b).map fun c => (b, c)

/-- The children that `f` gives, ascending. -/
def listing (f : UInt8 → Option α) : List (UInt8 × α) :=
  allBytes.filterMap (labelled f)

theorem labelled_eq_some {f : UInt8 → Option α} {a : UInt8} {e : UInt8 × α} :
    labelled f a = some e ↔ f e.1 = some e.2 ∧ e.1 = a := by
  unfold labelled
  rw [Option.map_eq_some_iff]
  constructor
  · rintro ⟨c, hc, rfl⟩
    exact ⟨hc, rfl⟩
  · rintro ⟨hc, rfl⟩
    exact ⟨e.2, hc, rfl⟩

theorem labelled_eq_none {f : UInt8 → Option α} {a : UInt8} :
    labelled f a = none ↔ f a = none := by
  simp [labelled]

theorem mem_filterMap_labelled {f : UInt8 → Option α} {bytes : List UInt8} {e : UInt8 × α} :
    e ∈ bytes.filterMap (labelled f) ↔ e.1 ∈ bytes ∧ f e.1 = some e.2 := by
  rw [List.mem_filterMap]
  constructor
  · rintro ⟨a, ha, he⟩
    obtain ⟨hc, rfl⟩ := labelled_eq_some.1 he
    exact ⟨ha, hc⟩
  · rintro ⟨ha, hc⟩
    exact ⟨e.1, ha, labelled_eq_some.2 ⟨hc, rfl⟩⟩

theorem mem_listing {f : UInt8 → Option α} {e : UInt8 × α} :
    e ∈ listing f ↔ f e.1 = some e.2 := by
  unfold listing
  rw [mem_filterMap_labelled]
  exact and_iff_right (mem_allBytes e.1)

theorem filterMap_labelled_ascending (f : UInt8 → Option α) {bytes : List UInt8}
    (h : bytes.Pairwise (· < ·)) :
    (bytes.filterMap (labelled f)).Pairwise fun d e => d.1 < e.1 := by
  rw [List.pairwise_filterMap]
  refine h.imp ?_
  intro a b hab d hd e he
  obtain ⟨-, rfl⟩ := labelled_eq_some.1 hd
  obtain ⟨-, rfl⟩ := labelled_eq_some.1 he
  exact hab

theorem listing_ascending (f : UInt8 → Option α) :
    (listing f).Pairwise fun d e => d.1 < e.1 :=
  filterMap_labelled_ascending f allBytes_ascending

theorem listing_none : listing (fun _ => (none : Option α)) = [] := by
  unfold listing
  rw [List.filterMap_eq_nil_iff]
  intro b _
  rfl

theorem length_listing_le (f : UInt8 → Option α) : (listing f).length ≤ 256 := by
  rw [← allBytes_length]
  exact List.length_filterMap_le _ _

/-! ### Changing the function at one byte -/

theorem filterMap_labelled_update_of_notMem (f : UInt8 → Option α) {b : UInt8} (c : Option α)
    {bytes : List UInt8} (h : b ∉ bytes) :
    bytes.filterMap (labelled (Function.update f b c)) = bytes.filterMap (labelled f) := by
  refine List.filterMap_congr ?_
  intro a ha
  have hab : a ≠ b := fun e => h (e ▸ ha)
  unfold labelled
  rw [Function.update_of_ne hab]

theorem insertSorted_of_lt {b : UInt8} {c : α} {es : List (UInt8 × α)}
    (h : ∀ e ∈ es, b < e.1) : Flat.insertSorted b c es = (b, c) :: es := by
  cases es with
  | nil => rfl
  | cons e es => exact if_pos (h e List.mem_cons_self)

theorem length_insertSorted (b : UInt8) (c : α) (es : List (UInt8 × α)) :
    (Flat.insertSorted b c es).length = es.length + 1 := by
  induction es with
  | nil => rfl
  | cons e es ih =>
    unfold Flat.insertSorted
    split
    · rfl
    · rw [List.length_cons, ih, List.length_cons]

/-- A child put in front of the first one with a greater byte makes the listing of the function
    that has it. The induction is on the bytes, in whose ascending order `b` is reached. -/
theorem insertSorted_filterMap_labelled {f : UInt8 → Option α} {b : UInt8} (c : α)
    (hf : f b = none) {bytes : List UInt8} (hs : bytes.Pairwise (· < ·)) (hb : b ∈ bytes) :
    Flat.insertSorted b c (bytes.filterMap (labelled f)) =
      bytes.filterMap (labelled (Function.update f b (some c))) := by
  induction bytes with
  | nil => exact absurd hb (List.not_mem_nil)
  | cons a bytes ih =>
    obtain ⟨ha, hs⟩ := List.pairwise_cons.1 hs
    rcases List.mem_cons.1 hb with rfl | hb
    · have hnot : b ∉ bytes := fun h => UInt8.lt_irrefl b (ha b h)
      have hnone : labelled f b = none := labelled_eq_none.2 hf
      have hsome : labelled (Function.update f b (some c)) b = some (b, c) := by simp [labelled]
      rw [List.filterMap_cons_none hnone, List.filterMap_cons_some hsome,
        filterMap_labelled_update_of_notMem f _ hnot]
      refine insertSorted_of_lt ?_
      intro e he
      exact ha e.1 (mem_filterMap_labelled.1 he).1
    · have hab : a < b := ha b hb
      have hne : a ≠ b := fun h => UInt8.lt_irrefl b (h ▸ hab)
      have hsame : labelled (Function.update f b (some c)) a = labelled f a := by
        unfold labelled
        rw [Function.update_of_ne hne]
      cases hfa : labelled f a with
      | none =>
        rw [List.filterMap_cons_none hfa, List.filterMap_cons_none (hsame.trans hfa)]
        exact ih hs hb
      | some e =>
        obtain ⟨-, hea⟩ := labelled_eq_some.1 hfa
        have hnlt : ¬ b < e.1 := fun h => UInt8.lt_asymm hab (hea ▸ h)
        rw [List.filterMap_cons_some hfa, List.filterMap_cons_some (hsame.trans hfa)]
        unfold Flat.insertSorted
        rw [if_neg hnlt, ih hs hb]

theorem insertSorted_listing {f : UInt8 → Option α} {b : UInt8} (c : α) (hf : f b = none) :
    Flat.insertSorted b c (listing f) = listing (Function.update f b (some c)) :=
  insertSorted_filterMap_labelled c hf allBytes_ascending (mem_allBytes b)

theorem map_listing {f : UInt8 → Option α} {b : UInt8} (c : α) (hf : (f b).isSome) :
    (listing f).map (fun e => if e.1 = b then (b, c) else e) = listing (Function.update f b (some c)) := by
  unfold listing
  rw [List.map_filterMap]
  refine List.filterMap_congr ?_
  intro a _
  by_cases hab : a = b
  · subst hab
    obtain ⟨d, hd⟩ := Option.isSome_iff_exists.1 hf
    simp [labelled, hd]
  · cases hf : f a <;> simp [labelled, hab, hf]

theorem filter_listing (f : UInt8 → Option α) (b : UInt8) :
    (listing f).filter (fun e => e.1 ≠ b) = listing (Function.update f b none) := by
  unfold listing
  rw [List.filter_filterMap]
  refine List.filterMap_congr ?_
  intro a _
  by_cases hab : a = b
  · subst hab
    cases hf : f a <;> simp [labelled, hf]
  · cases hf : f a <;> simp [labelled, hab, hf]

theorem length_listing_update_some {f : UInt8 → Option α} {b : UInt8} (c : α) (hf : f b = none) :
    (listing (Function.update f b (some c))).length = (listing f).length + 1 := by
  rw [← insertSorted_listing c hf, length_insertSorted]

theorem length_listing_replace {f : UInt8 → Option α} {b : UInt8} (c : α) (hf : (f b).isSome) :
    (listing (Function.update f b (some c))).length = (listing f).length := by
  rw [← map_listing c hf, List.length_map]

theorem length_listing_update_none {f : UInt8 → Option α} {b : UInt8} (hf : (f b).isSome) :
    (listing (Function.update f b none)).length + 1 = (listing f).length := by
  obtain ⟨c, hc⟩ := Option.isSome_iff_exists.1 hf
  have hback : Function.update (Function.update f b none) b (some c) = f := by
    rw [Function.update_idem, ← hc, Function.update_eq_self]
  rw [← length_listing_update_some c (Function.update_self b none f), hback]

end RadixStore
