import Mathlib
import RadixStore.Proofs.Node.Encoding

/-!
# Node bodies as maps from bytes

All four kinds of bodies keep the same promise: adding, exchanging and taking out a child change
the look-up at its byte and nowhere else, and the list of children and their number follow from the
look-up. A sound body is one that keeps the promise now; every operation leaves a sound body behind.
-/

namespace RadixStore

variable {α : Type}

namespace Body

/-- The parts of a body agree. -/
def Laid : Body α → Prop
  | .node4 f | .node16 f => f.entries = listing f.child?
  | .node48 x => x.Laid
  | .node256 d => d.slots.length = 256

/-- A body whose parts agree, that counts its children right and holds no more than it may. -/
structure Sound (body : Body α) : Prop where
  laid : body.Laid
  count_eq : body.count = (listing body.child?).length
  count_le : body.count ≤ body.kind.capacity

variable {body : Body α}

theorem Sound.toList_eq (h : body.Sound) : body.toList = listing body.child? := by
  cases body with
  | node4 f | node16 f => exact h.laid
  | node48 x | node256 d => rfl

theorem Sound.mem_toList (h : body.Sound) {e : UInt8 × α} :
    e ∈ body.toList ↔ body.child? e.1 = some e.2 := by
  rw [h.toList_eq, mem_listing]

theorem Sound.length_toList (h : body.Sound) : body.toList.length = body.count := by
  rw [h.toList_eq, h.count_eq]

theorem sound_node4 {f : Flat α} {g : UInt8 → Option α} (h : f.entries = listing g)
    (hle : f.count ≤ 4) : (node4 f).Sound := by
  have hf : f.entries = listing f.child? := by rw [Flat.child?_of_listing h, h]
  exact ⟨hf, congrArg List.length hf, hle⟩

theorem sound_node16 {f : Flat α} {g : UInt8 → Option α} (h : f.entries = listing g)
    (hle : f.count ≤ 16) : (node16 f).Sound := by
  have hf : f.entries = listing f.child? := by rw [Flat.child?_of_listing h, h]
  exact ⟨hf, congrArg List.length hf, hle⟩

theorem child?_empty (k : Kind) : (empty k : Body α).child? = fun _ => none := by
  funext b
  cases k with
  | node4 | node16 => rfl
  | node48 =>
    show (Slots.at? (Slots.empty 256) b.toNat).bind _ = none
    rw [Slots.at?_empty]
    rfl
  | node256 => exact Slots.at?_empty 256 b.toNat

theorem kind_empty (k : Kind) : (empty k : Body α).kind = k := by
  cases k <;> rfl

theorem count_empty (k : Kind) : (empty k : Body α).count = 0 := by
  cases k <;> rfl

theorem sound_empty (k : Kind) : (empty k : Body α).Sound := by
  refine ⟨?_, ?_, ?_⟩
  · cases k with
    | node4 | node16 => exact listing_none.symm
    | node48 => exact Indexed.laid_empty
    | node256 => exact List.length_replicate
  · rw [child?_empty, listing_none, count_empty]
    rfl
  · rw [count_empty]
    exact Nat.zero_le _

/-- With room left a child can be added under a byte that has none, and that is all that changes. -/
theorem Sound.insert? (h : body.Sound) {b : UInt8} (c : α) (hb : body.child? b = none)
    (hroom : body.count < body.kind.capacity) :
    ∃ y, body.insert? b c = some y ∧ y.Sound ∧ y.child? = Function.update body.child? b (some c) ∧
      y.kind = body.kind ∧ y.count = body.count + 1 := by
  have hlen := length_listing_update_some c hb
  cases body with
  | node4 f =>
    have he := Flat.insert_entries c h.laid hb
    have hn : (f.insert b c).count = f.count + 1 := length_insertSorted b c f.entries
    exact ⟨.node4 (f.insert b c), if_pos hroom, sound_node4 he (hn.trans_le hroom),
      Flat.child?_of_listing he, rfl, hn⟩
  | node16 f =>
    have he := Flat.insert_entries c h.laid hb
    have hn : (f.insert b c).count = f.count + 1 := length_insertSorted b c f.entries
    exact ⟨.node16 (f.insert b c), if_pos hroom, sound_node16 he (hn.trans_le hroom),
      Flat.child?_of_listing he, rfl, hn⟩
  | node48 x =>
    obtain ⟨y, hy, hlaid, hc, hn⟩ := Indexed.Laid.insert? h.laid b c hroom
    refine ⟨.node48 y, congrArg (Option.map Body.node48) hy, ⟨hlaid, ?_, ?_⟩, hc, rfl, hn⟩
    · show y.count = (listing y.child?).length
      rw [hn, hc]
      exact (congrArg (· + 1) h.count_eq).trans hlen.symm
    · exact hn.trans_le hroom
  | node256 d =>
    have hc := Direct.child?_insert h.laid b c
    have hlaid : (d.insert b c).slots.length = 256 := (Slots.length_put _ _ _).trans h.laid
    refine ⟨.node256 (d.insert b c), rfl, ⟨hlaid, ?_, ?_⟩, hc, rfl, rfl⟩
    · show d.count + 1 = (listing (d.insert b c).child?).length
      rw [hc]
      exact (congrArg (· + 1) h.count_eq).trans hlen.symm
    · exact hroom

theorem Sound.replace (h : body.Sound) {b : UInt8} (c : α) (hb : (body.child? b).isSome) :
    (body.replace b c).Sound ∧
      (body.replace b c).child? = Function.update body.child? b (some c) ∧
      (body.replace b c).kind = body.kind ∧ (body.replace b c).count = body.count := by
  have hlen := length_listing_replace c hb
  cases body with
  | node4 f =>
    have he := Flat.replace_entries c h.laid hb
    have hn : (f.replace b c).count = f.count := List.length_map _
    exact ⟨sound_node4 he (hn.trans_le h.count_le), Flat.child?_of_listing he, rfl, hn⟩
  | node16 f =>
    have he := Flat.replace_entries c h.laid hb
    have hn : (f.replace b c).count = f.count := List.length_map _
    exact ⟨sound_node16 he (hn.trans_le h.count_le), Flat.child?_of_listing he, rfl, hn⟩
  | node48 x =>
    obtain ⟨hlaid, hc, hn⟩ := Indexed.Laid.replace h.laid c hb
    refine ⟨⟨hlaid, ?_, hn.trans_le h.count_le⟩, hc, rfl, hn⟩
    show (x.replace b c).count = (listing (x.replace b c).child?).length
    rw [hn, hc]
    exact h.count_eq.trans hlen.symm
  | node256 d =>
    have hc := Direct.child?_replace h.laid c hb
    have hn : (d.replace b c).count = d.count := by rw [Direct.replace_of_isSome c hb]
    have hlaid : (d.replace b c).slots.length = 256 := by
      rw [Direct.replace_of_isSome c hb]
      exact (Slots.length_put _ _ _).trans h.laid
    refine ⟨⟨hlaid, ?_, hn.trans_le h.count_le⟩, hc, rfl, hn⟩
    show (d.replace b c).count = (listing (d.replace b c).child?).length
    rw [hn, hc]
    exact h.count_eq.trans hlen.symm

/-- Nothing is exchanged when the byte has no child, or has the new one already. -/
theorem Sound.replace_eq_self (h : body.Sound) {b : UInt8} {c : α}
    (hb : ∀ d, body.child? b = some d → d = c) : body.replace b c = body := by
  have hentries : ∀ e ∈ body.toList, (if e.1 = b then (b, c) else e) = e := by
    intro e he
    split
    · rename_i heb
      subst heb
      rw [← hb e.2 (h.mem_toList.1 he)]
    · rfl
  have hmap : body.toList.map (fun e => if e.1 = b then (b, c) else e) = body.toList := by
    rw [List.map_congr_left hentries, List.map_id']
  cases body with
  | node4 f => exact congrArg (fun es => node4 ⟨es⟩) hmap
  | node16 f => exact congrArg (fun es => node16 ⟨es⟩) hmap
  | node48 x =>
    cases hs : x.slot? b with
    | none => simp [Body.replace, Indexed.replace, hs]
    | some s =>
      -- the index names taken slots only
      obtain ⟨d, hd⟩ := Option.isSome_iff_exists.1 (h.laid.named b s hs)
      have hchild : x.child? b = some d := Option.bind_eq_some_iff.2 ⟨s, hs, hd⟩
      cases hb d hchild
      simp [Body.replace, Indexed.replace, hs, Slots.put_of_at? hd]
  | node256 d =>
    cases hd : d.child? b with
    | none => simp [Body.replace, Direct.replace, hd]
    | some e =>
      cases hb e hd
      simp [Body.replace, Direct.replace, hd, Slots.put_of_at? hd]

theorem Sound.erase (h : body.Sound) {b : UInt8} (hb : (body.child? b).isSome) :
    (body.erase b).Sound ∧
      (body.erase b).child? = Function.update body.child? b none ∧
      (body.erase b).kind = body.kind ∧ (body.erase b).count + 1 = body.count := by
  have hlen := length_listing_update_none hb
  have hcount : body.count = (listing body.child?).length := h.count_eq
  have hle := h.count_le
  cases body with
  | node4 f =>
    have he := Flat.erase_entries b h.laid
    have hn : (f.erase b).count + 1 = f.count :=
      (congrArg (· + 1) (congrArg List.length he)).trans (hlen.trans hcount.symm)
    exact ⟨sound_node4 he ((Nat.le_succ _).trans (hn.trans_le hle)), Flat.child?_of_listing he,
      rfl, hn⟩
  | node16 f =>
    have he := Flat.erase_entries b h.laid
    have hn : (f.erase b).count + 1 = f.count :=
      (congrArg (· + 1) (congrArg List.length he)).trans (hlen.trans hcount.symm)
    exact ⟨sound_node16 he ((Nat.le_succ _).trans (hn.trans_le hle)), Flat.child?_of_listing he,
      rfl, hn⟩
  | node48 x =>
    obtain ⟨hlaid, hc, hn⟩ := Indexed.Laid.erase h.laid hb
    refine ⟨⟨hlaid, ?_, ?_⟩, hc, rfl, hn⟩
    · show (x.erase b).count = (listing (x.erase b).child?).length
      rw [hc]
      have hx : x.count = (listing x.child?).length := hcount
      have hl : (listing (Function.update x.child? b none)).length + 1 =
          (listing x.child?).length := hlen
      omega
    · exact (Nat.le_succ _).trans (hn.trans_le hle)
  | node256 d =>
    have hc := Direct.child?_erase h.laid hb
    have hx : d.count = (listing d.child?).length := hcount
    have hl : (listing (Function.update d.child? b none)).length + 1 =
        (listing d.child?).length := hlen
    have hn : (d.erase b).count + 1 = d.count := by
      rw [Direct.erase_of_isSome hb]
      show d.count - 1 + 1 = d.count
      omega
    have hlaid : (d.erase b).slots.length = 256 := by
      rw [Direct.erase_of_isSome hb]
      exact (Slots.length_clear _ _).trans h.laid
    refine ⟨⟨hlaid, ?_, (Nat.le_succ _).trans (hn.trans_le hle)⟩, hc, rfl, hn⟩
    show (d.erase b).count = (listing (d.erase b).child?).length
    rw [hc]
    omega

/-- Nothing is taken out when the byte has no child. -/
theorem Sound.erase_eq_self (h : body.Sound) {b : UInt8} (hb : body.child? b = none) :
    body.erase b = body := by
  have hentries : ∀ e ∈ body.toList, e.1 ≠ b := by
    rintro e he rfl
    rw [h.mem_toList.1 he] at hb
    cases hb
  have hfilter : body.toList.filter (fun e => e.1 ≠ b) = body.toList := by
    rw [List.filter_eq_self]
    intro e he
    exact decide_eq_true (hentries e he)
  cases body with
  | node4 f => exact congrArg (fun es => node4 ⟨es⟩) hfilter
  | node16 f => exact congrArg (fun es => node16 ⟨es⟩) hfilter
  | node48 x =>
    cases hs : x.slot? b with
    | none => simp [Body.erase, Indexed.erase, hs]
    | some s =>
      obtain ⟨d, hd⟩ := Option.isSome_iff_exists.1 (h.laid.named b s hs)
      have hchild : x.child? b = some d := Option.bind_eq_some_iff.2 ⟨s, hs, hd⟩
      exact absurd (hb.symm.trans hchild) (by simp)
  | node256 d =>
    have hd : d.child? b = none := hb
    simp [Body.erase, Direct.erase, hd]

/-- Adding a list of children to a body that has none of them, with room for all. -/
theorem Sound.insertAll?_filterMap {g : UInt8 → Option α} {bytes : List UInt8}
    (hs : bytes.Pairwise (· < ·)) (h : body.Sound) (hfree : ∀ b ∈ bytes, body.child? b = none)
    (hroom : body.count + (bytes.filterMap (labelled g)).length ≤ body.kind.capacity) :
    ∃ y, body.insertAll? (bytes.filterMap (labelled g)) = some y ∧ y.Sound ∧
      (∀ b, y.child? b = if b ∈ bytes then g b else body.child? b) ∧ y.kind = body.kind := by
  induction bytes generalizing body with
  | nil => exact ⟨body, rfl, h, fun b => by simp, rfl⟩
  | cons a bytes ih =>
    obtain ⟨ha, hs⟩ := List.pairwise_cons.1 hs
    have hnot : a ∉ bytes := fun hmem => UInt8.lt_irrefl a (ha a hmem)
    have hrest : ∀ b ∈ bytes, body.child? b = none := fun b hb =>
      hfree b (List.mem_cons_of_mem a hb)
    cases hg : g a with
    | none =>
      rw [List.filterMap_cons_none (labelled_eq_none.2 hg)] at hroom ⊢
      obtain ⟨y, hy, hsound, hchild, hkind⟩ := ih hs h hrest hroom
      refine ⟨y, hy, hsound, ?_, hkind⟩
      intro b
      rw [hchild b]
      by_cases hba : b = a
      · subst hba
        rw [if_neg hnot, if_pos List.mem_cons_self, hg, hfree b List.mem_cons_self]
      · simp [hba]
    | some c =>
      have hlab : labelled g a = some (a, c) := labelled_eq_some.2 ⟨hg, rfl⟩
      rw [List.filterMap_cons_some hlab] at hroom ⊢
      rw [List.length_cons] at hroom
      obtain ⟨z, hz, hzsound, hzchild, hzkind, hzcount⟩ :=
        h.insert? c (hfree a List.mem_cons_self) (by omega)
      have hzfree : ∀ b ∈ bytes, z.child? b = none := by
        intro b hb
        have hba : b ≠ a := fun e => hnot (e ▸ hb)
        rw [hzchild, Function.update_of_ne hba]
        exact hrest b hb
      obtain ⟨y, hy, hsound, hchild, hkind⟩ := ih hs hzsound hzfree (by rw [hzkind]; omega)
      refine ⟨y, ?_, hsound, ?_, hkind.trans hzkind⟩
      · unfold insertAll? at hy ⊢
        rw [List.foldlM_cons, hz]
        exact hy
      · intro b
        rw [hchild b, hzchild]
        by_cases hba : b = a
        · subst hba
          rw [if_neg hnot, if_pos List.mem_cons_self, Function.update_self, hg]
        · simp [hba]

/-- A listing that is not too long fills an empty body. -/
theorem insertAll?_listing {k : Kind} {g : UInt8 → Option α}
    (h : (listing g).length ≤ k.capacity) :
    ∃ y, (empty k : Body α).insertAll? (listing g) = some y ∧ y.Sound ∧ y.child? = g ∧
      y.kind = k := by
  have hroom : (empty k : Body α).count + (listing g).length ≤ (empty k : Body α).kind.capacity := by
    rw [count_empty, kind_empty]
    omega
  obtain ⟨y, hy, hsound, hchild, hkind⟩ := Sound.insertAll?_filterMap (g := g) allBytes_ascending
    (sound_empty k) (fun b _ => by rw [child?_empty]) hroom
  refine ⟨y, hy, hsound, ?_, hkind.trans (kind_empty k)⟩
  funext b
  rw [hchild b, if_pos (mem_allBytes b)]

/-! ### Looking for the nearest child -/

/-- `o` is the first child, in the order `R`, under a byte that satisfies `P`. -/
def IsFirst (f : UInt8 → Option α) (P : UInt8 → Prop) (R : UInt8 → UInt8 → Prop) :
    Option (UInt8 × α) → Prop
  | none => ∀ a, P a → f a = none
  | some e => f e.1 = some e.2 ∧ P e.1 ∧ ∀ a, P a → R a e.1 → f a = none

/-- The first child among bytes that are run through in the order `R`. -/
theorem isFirst_findSome? (f : UInt8 → Option α) {R : UInt8 → UInt8 → Prop}
    (hR : ∀ a b, R a b → ¬ R b a) {P : UInt8 → Prop} {bytes : List UInt8}
    (hs : bytes.Pairwise R) (hP : ∀ a, a ∈ bytes ↔ P a) :
    IsFirst f P R (bytes.findSome? (labelled f)) := by
  cases hf : bytes.findSome? (labelled f) with
  | none =>
    intro a ha
    exact labelled_eq_none.1 (List.findSome?_eq_none_iff.1 hf a ((hP a).2 ha))
  | some e =>
    obtain ⟨before, a, after, rfl, he, hbefore⟩ := List.findSome?_eq_some_iff.1 hf
    obtain ⟨hc, rfl⟩ := labelled_eq_some.1 he
    refine ⟨hc, (hP e.1).1 (by simp), ?_⟩
    intro b hb hbe
    rcases List.mem_append.1 ((hP b).2 hb) with hmem | hmem
    · exact labelled_eq_none.1 (hbefore b hmem)
    · have heb : b = e.1 ∨ R e.1 b := by
        rcases List.mem_cons.1 hmem with rfl | hmem
        · exact Or.inl rfl
        · exact Or.inr ((List.pairwise_cons.1 (List.pairwise_append.1 hs).2.1).1 b hmem)
      rcases heb with rfl | heb
      · exact absurd hbe (hR _ _ hbe)
      · exact absurd hbe (hR _ _ heb)

theorem isFirst_find? {f : UInt8 → Option α} {R : UInt8 → UInt8 → Prop}
    (hR : ∀ a b, R a b → ¬ R b a) (P : UInt8 → Prop) [DecidablePred P] {es : List (UInt8 × α)}
    (hs : es.Pairwise fun d e => R d.1 e.1) (hf : ∀ e, e ∈ es ↔ f e.1 = some e.2) :
    IsFirst f P R (es.find? fun e => P e.1) := by
  have hnone : ∀ a, (∀ c, (a, c) ∉ es) → f a = none := by
    intro a ha
    cases hfa : f a with
    | none => rfl
    | some c => exact absurd ((hf (a, c)).2 hfa) (ha c)
  cases hfind : es.find? (fun e => P e.1) with
  | none =>
    intro a ha
    refine hnone a ?_
    intro c hmem
    exact absurd (decide_eq_true ha) (List.find?_eq_none.1 hfind (a, c) hmem)
  | some e =>
    obtain ⟨hPe, before, after, rfl, hbefore⟩ := List.find?_eq_some_iff_append.1 hfind
    refine ⟨(hf e).1 (by simp), of_decide_eq_true hPe, ?_⟩
    intro a ha hae
    refine hnone a ?_
    intro c hmem
    rcases List.mem_append.1 hmem with hmem | hmem
    · have hfalse := hbefore (a, c) hmem
      simp [ha] at hfalse
    · rcases List.mem_cons.1 hmem with rfl | hmem
      · exact absurd hae (hR _ _ hae)
      · exact hR _ _ hae ((List.pairwise_cons.1 (List.pairwise_append.1 hs).2.1).1 (a, c) hmem)

theorem Sound.toList_ascending (h : body.Sound) : body.toList.Pairwise fun d e => d.1 < e.1 := by
  rw [h.toList_eq]
  exact listing_ascending _

theorem Sound.isFirst_childFrom (h : body.Sound) (b : UInt8) :
    IsFirst body.child? (b ≤ ·) (· < ·) (body.childFrom b) := by
  have hR : ∀ a c : UInt8, a < c → ¬ c < a := fun _ _ => UInt8.lt_asymm
  cases body with
  | node4 f | node16 f =>
    exact isFirst_find? hR (b ≤ ·) h.toList_ascending fun e => h.mem_toList
  | node48 x | node256 d =>
    exact isFirst_findSome? _ hR (bytesFrom_ascending b) fun a => mem_bytesFrom

theorem Sound.isFirst_childUpTo (h : body.Sound) (b : UInt8) :
    IsFirst body.child? (· ≤ b) (· > ·) (body.childUpTo b) := by
  have hR : ∀ a c : UInt8, a > c → ¬ c > a := fun _ _ => UInt8.lt_asymm
  cases body with
  | node4 f | node16 f =>
    refine isFirst_find? hR (· ≤ b) (List.pairwise_reverse.2 h.toList_ascending) fun e => ?_
    rw [List.mem_reverse]
    exact h.mem_toList
  | node48 x | node256 d =>
    exact isFirst_findSome? _ hR (bytesUpTo_descending b) fun a => mem_bytesUpTo

end Body

end RadixStore
