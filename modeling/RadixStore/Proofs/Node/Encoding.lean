import Mathlib
import RadixStore.Proofs.Node.Listing

/-!
# Encodings of node bodies

The three ways in which the children of a node are stored: a sorted list, an index into slots, and
a slot for every byte. In each of them adding, exchanging and taking out a child change the look-up
at its byte and nowhere else. The sorted list is the listing of its own look-up; the index is
consistent with its slots, which is what leaves a free slot as long as fewer than 48 are counted.
-/

namespace RadixStore

variable {α : Type}

/-! ### Rows of slots -/

namespace Slots

theorem at?_put {s : Slots α} {i : Nat} (c : α) (hi : i < s.length) (j : Nat) :
    (s.put i c).at? j = if j = i then some c else s.at? j := by
  unfold at? put
  by_cases hj : j = i
  · subst hj
    simp [hi]
  · rw [List.getElem?_set_ne (fun h => hj h.symm), if_neg hj]

theorem at?_clear {s : Slots α} {i : Nat} (hi : i < s.length) (j : Nat) :
    (s.clear i).at? j = if j = i then none else s.at? j := by
  unfold at? clear
  by_cases hj : j = i
  · subst hj
    simp [hi]
  · rw [List.getElem?_set_ne (fun h => hj h.symm), if_neg hj]

theorem put_of_at? {s : Slots α} {i : Nat} {c : α} (h : s.at? i = some c) : s.put i c = s := by
  obtain ⟨hi, hc⟩ := List.getElem?_eq_some_iff.1 (getElem?_of_at? h)
  unfold put
  rw [← hc, List.set_getElem_self]

theorem length_put (s : Slots α) (i : Nat) (c : α) : (s.put i c).length = s.length :=
  List.length_set

theorem length_clear (s : Slots α) (i : Nat) : (s.clear i).length = s.length :=
  List.length_set

theorem at?_empty (n i : Nat) : (empty n : Slots α).at? i = none := by
  unfold at? empty
  rw [List.getElem?_replicate]
  split <;> rfl

theorem lt_length_of_at? {s : Slots α} {i : Nat} {c : α} (h : s.at? i = some c) :
    i < s.length :=
  (List.getElem?_eq_some_iff.1 (getElem?_of_at? h)).1

/-- How many places are taken. -/
def taken (s : Slots α) : Nat :=
  s.countP Option.isSome

theorem taken_empty (n : Nat) : (empty n : Slots α).taken = 0 := by
  unfold taken empty
  rw [List.countP_replicate]
  rfl

theorem taken_put {s : Slots α} {i : Nat} (c : α) (hi : i < s.length) :
    (s.put i c).taken = s.taken + (if (s.at? i).isSome then 0 else 1) := by
  have hat : s.at? i = s[i] := by simp [at?, hi]
  have hle : s[i].isSome = true → 0 < s.countP Option.isSome := fun h =>
    List.countP_pos_iff.2 ⟨s[i], List.getElem_mem hi, h⟩
  unfold taken put
  rw [List.countP_set hi, hat]
  cases h : s[i] with
  | none => simp
  | some d =>
    have hpos := hle (by rw [h]; rfl)
    simp
    omega

theorem taken_clear {s : Slots α} {i : Nat} {c : α} (h : s.at? i = some c) :
    (s.clear i).taken + 1 = s.taken := by
  have hi := lt_length_of_at? h
  have hat : s[i] = some c := by simpa [at?, hi] using h
  have hpos : 0 < s.countP Option.isSome :=
    List.countP_pos_iff.2 ⟨s[i], List.getElem_mem hi, by rw [hat]; rfl⟩
  unfold taken clear
  rw [List.countP_set hi, hat]
  simp
  omega

theorem exists_firstFree? {s : Slots α} (h : s.taken < s.length) :
    ∃ i, s.firstFree? = some i ∧ i < s.length ∧ s.at? i = none := by
  have hex : ∃ o ∈ s, Option.isNone o = true := by
    by_contra hn
    have hall : ∀ o ∈ s, Option.isSome o = true := by
      intro o ho
      cases o with
      | none => exact absurd ⟨none, ho, rfl⟩ hn
      | some c => rfl
    have heq : s.taken = s.length := List.countP_eq_length.2 hall
    omega
  unfold firstFree?
  cases hf : List.findIdx? Option.isNone s with
  | none =>
    obtain ⟨o, ho, hnone⟩ := hex
    have := List.findIdx?_eq_none_iff.1 hf o ho
    rw [hnone] at this
    exact Bool.noConfusion this
  | some i =>
    obtain ⟨hi, hnone, -⟩ := List.findIdx?_eq_some_iff_getElem.1 hf
    refine ⟨i, rfl, hi, ?_⟩
    have : s[i] = none := by simpa using hnone
    simp [at?, hi, this]

end Slots

/-! ### Flat bodies -/

namespace Flat

/-- A flat body whose children are a listing looks them up as the listed function does. -/
theorem child?_of_listing {f : Flat α} {g : UInt8 → Option α} (h : f.entries = listing g) :
    f.child? = g := by
  funext b
  unfold child?
  rw [h]
  cases hg : g b with
  | none =>
    have hnone : (listing g).find? (fun e => e.1 = b) = none := by
      rw [List.find?_eq_none]
      intro e he
      have hne : e.1 ≠ b := by
        rintro rfl
        rw [mem_listing.1 he] at hg
        cases hg
      simpa using hne
    rw [hnone]
    rfl
  | some c =>
    have hmem : (b, c) ∈ listing g := mem_listing.2 hg
    cases hf : (listing g).find? (fun e => e.1 = b) with
    | none => exact absurd (List.find?_eq_none.1 hf (b, c) hmem) (by simp)
    | some e =>
      have heb : e.1 = b := by simpa using List.find?_some hf
      have he := mem_listing.1 (List.mem_of_find?_eq_some hf)
      rw [heb, hg] at he
      exact he.symm

theorem insert_entries {f : Flat α} {b : UInt8} (c : α) (h : f.entries = listing f.child?)
    (hb : f.child? b = none) :
    (f.insert b c).entries = listing (Function.update f.child? b (some c)) := by
  unfold insert
  rw [h]
  exact insertSorted_listing c hb

theorem replace_entries {f : Flat α} {b : UInt8} (c : α) (h : f.entries = listing f.child?)
    (hb : (f.child? b).isSome) :
    (f.replace b c).entries = listing (Function.update f.child? b (some c)) := by
  unfold replace
  rw [h]
  exact map_listing c hb

theorem erase_entries {f : Flat α} (b : UInt8) (h : f.entries = listing f.child?) :
    (f.erase b).entries = listing (Function.update f.child? b none) := by
  unfold erase
  rw [h]
  exact filter_listing _ b

end Flat

/-! ### Indexed bodies -/

/-- The index and the slots of an indexed body agree: it names only slots that are taken, no slot
    twice, and both hold as many children as are counted. -/
structure Indexed.Laid (x : Indexed α) : Prop where
  index_length : x.index.length = 256
  slots_length : x.slots.length = 48
  named : ∀ b s, x.slot? b = some s → (Slots.at? x.slots s).isSome
  once : ∀ a b s, x.slot? a = some s → x.slot? b = some s → a = b
  taken : Slots.taken x.slots = x.count

namespace Indexed

variable {x : Indexed α}

theorem Laid.lt_index (h : x.Laid) (b : UInt8) : b.toNat < x.index.length := by
  rw [h.index_length]
  exact b.toNat_lt

theorem laid_empty : (empty : Indexed α).Laid where
  index_length := List.length_replicate
  slots_length := List.length_replicate
  named := by
    intro b s hs
    rw [slot?, empty, Slots.at?_empty] at hs
    cases hs
  once := by
    intro a b s hs
    rw [slot?, empty, Slots.at?_empty] at hs
    cases hs
  taken := Slots.taken_empty 48

/-- With a slot left a child can be added, and that is all that changes. -/
theorem Laid.insert? (h : x.Laid) (b : UInt8) (c : α) (hroom : x.count < 48) :
    ∃ y, x.insert? b c = some y ∧ y.Laid ∧ y.child? = Function.update x.child? b (some c) ∧
      y.count = x.count + 1 := by
  have hfree : Slots.taken x.slots < List.length x.slots := by
    rw [h.taken, h.slots_length]
    exact hroom
  obtain ⟨s, hs, hlt, hempty⟩ := Slots.exists_firstFree? hfree
  have hslot : ∀ a, Slots.at? (Slots.put x.index b.toNat s) a.toNat =
      if a = b then some s else x.slot? a := by
    intro a
    rw [Slots.at?_put s (h.lt_index b)]
    exact if_congr UInt8.toNat_inj rfl rfl
  -- the slot found is empty, so no other byte is looked up in it
  have hother : ∀ a r, x.slot? a = some r → r ≠ s := by
    rintro a r har rfl
    have hsome := h.named a r har
    rw [hempty] at hsome
    exact Bool.noConfusion hsome
  refine ⟨⟨x.count + 1, Slots.put x.index b.toNat s, Slots.put x.slots s c⟩, ?_, ?_, ?_, rfl⟩
  · unfold Indexed.insert?
    rw [hs]
    rfl
  · constructor
    · exact (Slots.length_put _ _ _).trans h.index_length
    · exact (Slots.length_put _ _ _).trans h.slots_length
    · intro a r har
      have har := (hslot a).symm.trans har
      rw [Slots.at?_put c hlt]
      by_cases hab : a = b
      · rw [if_pos hab, Option.some.injEq] at har
        rw [if_pos har.symm]
        rfl
      · rw [if_neg hab] at har
        rw [if_neg (hother a r har)]
        exact h.named a r har
    · intro a d r har hdr
      have har := (hslot a).symm.trans har
      have hdr := (hslot d).symm.trans hdr
      by_cases hab : a = b
      · by_cases hdb : d = b
        · rw [hab, hdb]
        · rw [if_pos hab, Option.some.injEq] at har
          rw [if_neg hdb] at hdr
          exact absurd har.symm (hother d r hdr)
      · rw [if_neg hab] at har
        by_cases hdb : d = b
        · rw [if_pos hdb, Option.some.injEq] at hdr
          exact absurd hdr.symm (hother a r har)
        · rw [if_neg hdb] at hdr
          exact h.once a d r har hdr
    · show Slots.taken (Slots.put x.slots s c) = x.count + 1
      rw [Slots.taken_put c hlt, hempty, h.taken]
      rfl
  · funext a
    show (Slots.at? (Slots.put x.index b.toNat s) a.toNat).bind
      (fun r => Slots.at? (Slots.put x.slots s c) r) = _
    rw [hslot a]
    by_cases hab : a = b
    · rw [if_pos hab, hab, Function.update_self, Option.bind_some, Slots.at?_put c hlt, if_pos rfl]
    · rw [if_neg hab, Function.update_of_ne hab]
      unfold child?
      cases har : x.slot? a with
      | none => rfl
      | some r => rw [Option.bind_some, Option.bind_some, Slots.at?_put c hlt,
          if_neg (hother a r har)]

theorem Laid.exists_slot (h : x.Laid) {b : UInt8} (hb : (x.child? b).isSome) :
    ∃ s c, x.slot? b = some s ∧ Slots.at? x.slots s = some c ∧
      ∀ a r, x.slot? a = some r → a ≠ b → r ≠ s := by
  obtain ⟨c, hc⟩ := Option.isSome_iff_exists.1 hb
  obtain ⟨s, hs, hsc⟩ := Option.bind_eq_some_iff.1 hc
  refine ⟨s, c, hs, hsc, ?_⟩
  rintro a r har hab rfl
  exact hab (h.once a b r har hs)

theorem Laid.replace (h : x.Laid) {b : UInt8} (c : α) (hb : (x.child? b).isSome) :
    (x.replace b c).Laid ∧ (x.replace b c).child? = Function.update x.child? b (some c) ∧
      (x.replace b c).count = x.count := by
  obtain ⟨s, d, hs, hsd, hother⟩ := h.exists_slot hb
  have hlt := Slots.lt_length_of_at? hsd
  have hrep : x.replace b c = { x with slots := Slots.put x.slots s c } := by
    unfold Indexed.replace
    rw [hs]
  rw [hrep]
  refine ⟨⟨h.index_length, (Slots.length_put _ _ _).trans h.slots_length, ?_, h.once, ?_⟩, ?_, rfl⟩
  · intro a r har
    show (Slots.at? (Slots.put x.slots s c) r).isSome
    rw [Slots.at?_put c hlt]
    by_cases hrs : r = s
    · rw [if_pos hrs]
      rfl
    · rw [if_neg hrs]
      exact h.named a r har
  · show Slots.taken (Slots.put x.slots s c) = x.count
    rw [Slots.taken_put c hlt, hsd, h.taken]
    rfl
  · funext a
    show (x.slot? a).bind (fun r => Slots.at? (Slots.put x.slots s c) r) = _
    by_cases hab : a = b
    · rw [hab, Function.update_self, hs, Option.bind_some, Slots.at?_put c hlt, if_pos rfl]
    · rw [Function.update_of_ne hab]
      unfold child?
      cases har : x.slot? a with
      | none => rfl
      | some r => rw [Option.bind_some, Option.bind_some, Slots.at?_put c hlt,
          if_neg (hother a r har hab)]

theorem Laid.erase (h : x.Laid) {b : UInt8} (hb : (x.child? b).isSome) :
    (x.erase b).Laid ∧ (x.erase b).child? = Function.update x.child? b none ∧
      (x.erase b).count + 1 = x.count := by
  obtain ⟨s, d, hs, hsd, hother⟩ := h.exists_slot hb
  have hlt := Slots.lt_length_of_at? hsd
  have htaken := (Slots.taken_clear hsd).trans h.taken
  have hrep : x.erase b =
      ⟨x.count - 1, Slots.clear x.index b.toNat, Slots.clear x.slots s⟩ := by
    unfold Indexed.erase
    rw [hs]
  have hslot : ∀ a, Slots.at? (Slots.clear x.index b.toNat) a.toNat =
      if a = b then none else x.slot? a := by
    intro a
    rw [Slots.at?_clear (h.lt_index b)]
    exact if_congr UInt8.toNat_inj rfl rfl
  rw [hrep]
  refine ⟨⟨(Slots.length_clear _ _).trans h.index_length,
    (Slots.length_clear _ _).trans h.slots_length, ?_, ?_, ?_⟩, ?_, ?_⟩
  · intro a r har
    have har := (hslot a).symm.trans har
    by_cases hab : a = b
    · rw [if_pos hab] at har
      cases har
    · rw [if_neg hab] at har
      show (Slots.at? (Slots.clear x.slots s) r).isSome
      rw [Slots.at?_clear hlt, if_neg (hother a r har hab)]
      exact h.named a r har
  · intro a e r har her
    have har := (hslot a).symm.trans har
    have her := (hslot e).symm.trans her
    by_cases hab : a = b
    · rw [if_pos hab] at har
      cases har
    · by_cases heb : e = b
      · rw [if_pos heb] at her
        cases her
      · rw [if_neg hab] at har
        rw [if_neg heb] at her
        exact h.once a e r har her
  · show Slots.taken (Slots.clear x.slots s) = x.count - 1
    omega
  · funext a
    show (Slots.at? (Slots.clear x.index b.toNat) a.toNat).bind
      (fun r => Slots.at? (Slots.clear x.slots s) r) = _
    rw [hslot a]
    by_cases hab : a = b
    · rw [if_pos hab, hab, Function.update_self, Option.bind_none]
    · rw [if_neg hab, Function.update_of_ne hab]
      unfold child?
      cases har : x.slot? a with
      | none => rfl
      | some r => rw [Option.bind_some, Option.bind_some, Slots.at?_clear hlt,
          if_neg (hother a r har hab)]
  · show x.count - 1 + 1 = x.count
    omega

end Indexed

/-! ### Direct bodies -/

namespace Direct

variable {d : Direct α}

theorem child?_insert (h : d.slots.length = 256) (b : UInt8) (c : α) :
    (d.insert b c).child? = Function.update d.child? b (some c) := by
  have hlt : b.toNat < d.slots.length := by
    rw [h]
    exact b.toNat_lt
  funext a
  show Slots.at? (Slots.put d.slots b.toNat c) a.toNat = _
  rw [Slots.at?_put c hlt, Function.update_apply]
  exact if_congr UInt8.toNat_inj rfl rfl

theorem replace_of_isSome {b : UInt8} (c : α) (hb : (d.child? b).isSome) :
    d.replace b c = { d with slots := Slots.put d.slots b.toNat c } := by
  obtain ⟨e, he⟩ := Option.isSome_iff_exists.1 hb
  unfold Direct.replace
  rw [he]

theorem child?_replace (h : d.slots.length = 256) {b : UInt8} (c : α)
    (hb : (d.child? b).isSome) :
    (d.replace b c).child? = Function.update d.child? b (some c) := by
  rw [replace_of_isSome c hb]
  exact child?_insert h b c

theorem erase_of_isSome {b : UInt8} (hb : (d.child? b).isSome) :
    d.erase b = ⟨d.count - 1, Slots.clear d.slots b.toNat⟩ := by
  obtain ⟨e, he⟩ := Option.isSome_iff_exists.1 hb
  unfold Direct.erase
  rw [he]

theorem child?_erase (h : d.slots.length = 256) {b : UInt8} (hb : (d.child? b).isSome) :
    (d.erase b).child? = Function.update d.child? b none := by
  have hlt : b.toNat < d.slots.length := by
    rw [h]
    exact b.toNat_lt
  rw [erase_of_isSome hb]
  funext a
  show Slots.at? (Slots.clear d.slots b.toNat) a.toNat = _
  rw [Slots.at?_clear hlt, Function.update_apply]
  exact if_congr UInt8.toNat_inj rfl rfl

end Direct

end RadixStore
