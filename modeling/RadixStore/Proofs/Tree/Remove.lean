import Mathlib
import RadixStore.Proofs.Tree.Insert

/-!
# Removing a key is an edit

An attempt to remove a key from a valid tree never fails either. It finds no such key and changes
nothing, or it comes to an edit that takes the leaf out. That every node but the root has two entries
leaves a collapsing node exactly one other entry, and that its kind is the smallest that fits makes
the rebuilt node exactly full.
-/

namespace RadixStore

variable {V : Type}

namespace Kind

variable {k : Kind} {count : Nat}

theorem IsLeast.shrunk_lt (h : k.IsLeast count) (hk : k ≠ .node4) :
    k.shrunk.capacity < count := by
  by_contra hle
  have hcap := h k.shrunk (Nat.le_of_not_lt hle)
  cases k with
  | node4 => exact hk rfl
  | node16 => exact absurd hcap (by decide)
  | node48 => exact absurd hcap (by decide)
  | node256 => exact absurd hcap (by decide)

theorem IsLeast.of_shrunk_lt (h : k.shrunk.capacity < count) : k.IsLeast count := by
  intro j hj
  cases k <;> cases j <;> simp only [shrunk, capacity] at * <;> omega

theorem isLeast_capacity (k : Kind) : k.IsLeast k.capacity := fun _ hj => hj

theorem four_le_capacity (k : Kind) : 4 ≤ k.capacity := by
  cases k <;> decide

theorem shouldShrink_iff : k.shouldShrink count = true ↔ k ≠ .node4 ∧ count ≤ k.shrunk.capacity := by
  cases k <;> simp [shouldShrink]

end Kind

namespace Branch

variable {n m : Inner V} {path stem : Key} {isRoot : Bool} {key : Key}

/-! ### Sizes after a leaf is gone -/

theorem count_le_entryCount (n : Inner V) : n.count ≤ n.entryCount := Nat.le_add_right _ _

/-- A node that is neither to collapse nor to shrink keeps its shape when it loses a leaf. -/
theorem Shaped.erase (hs : n.Shaped isRoot stem) (hn : n.body.Sound) {edge : Edge}
    (hsome : (n.load edge).isSome) (h : n.Alters m edge none)
    (hkeep : isRoot = false → ¬ (n.kind = .node4 ∧ n.entryCount ≤ 2) ∧
      ∀ b, edge = .byte b → ¬ n.kind.shouldShrink (n.count - 1)) : m.Shaped isRoot stem := by
  cases isRoot with
  | true => exact ⟨hs.1, h.kind_eq.trans hs.2⟩
  | false =>
    obtain ⟨hcollapse, hshrink⟩ := hkeep rfl
    have hentries := h.entryCount_eq hn
    rw [if_pos hsome] at hentries
    have hentries : m.entryCount + 1 = n.entryCount := hentries
    have hcount : n.count ≤ m.count + 1 ∧ (n.kind = .node4 ∨ n.kind.shrunk.capacity < m.count) := by
      have hcount := h.count_eq hn
      cases edge with
      | terminal =>
        have hcount : m.count = n.count := hcount
        rw [hcount]
        refine ⟨Nat.le_succ _, or_iff_not_imp_left.2 ?_⟩
        exact hs.2.shrunk_lt
      | byte b =>
        have hcount : m.count + (if (n.load (.byte b)).isSome then 1 else 0) = n.count + 0 := hcount
        rw [if_pos hsome] at hcount
        refine ⟨hcount.ge, or_iff_not_imp_left.2 ?_⟩
        intro hk
        by_contra hle
        refine hshrink b rfl (Kind.shouldShrink_iff.2 ⟨hk, ?_⟩)
        omega
    refine ⟨?_, ?_⟩
    · by_cases hk : n.kind = .node4
      · have hmore : ¬ n.entryCount ≤ 2 := fun hle => hcollapse ⟨hk, hle⟩
        omega
      · have hlt := hcount.2.resolve_left hk
        have hfour := Kind.four_le_capacity n.kind.shrunk
        have hle := count_le_entryCount m
        omega
    · rw [h.kind_eq]
      rcases hcount.2 with hk | hlt
      · rw [hk]
        exact isLeast_node4 _
      · exact Kind.IsLeast.of_shrunk_lt hlt

theorem exists_other (hn : n.body.Sound) (htwo : n.entryCount = 2) {edge : Edge} {c : Node V}
    (hload : n.load edge = some c) :
    ∃ edge' c', n.entries.find? (fun e => e.1 ≠ edge) = some (edge', c') ∧
      n.load edge' = some c' ∧ edge' ≠ edge ∧
      ∀ e, e ≠ edge → e ≠ edge' → n.load e = none := by
  have hlen := length_entries hn
  rw [htwo] at hlen
  obtain ⟨x, y, hxy⟩ := List.length_eq_two.1 hlen
  have hmem : ∀ e d, n.load e = some d ↔ (e, d) = x ∨ (e, d) = y := by
    intro e d
    rw [← mem_entries hn, hxy, List.mem_cons, List.mem_singleton]
  have hasc := entries_ascending hn
  rw [hxy] at hasc
  have hne : x.1 ≠ y.1 := by
    intro heq
    have hlt := (List.pairwise_cons.1 hasc).1 y (List.mem_singleton.2 rfl)
    rw [heq] at hlt
    exact lt_irrefl _ hlt
  rw [hxy]
  -- the given entry is the one or the other
  rcases (hmem edge c).1 hload with rfl | rfl
  · have hne : y.1 ≠ edge := hne.symm
    refine ⟨y.1, y.2, by simp [hne], (hmem _ _).2 (Or.inr rfl), hne, ?_⟩
    intro e he he'
    rw [Option.eq_none_iff_forall_ne_some]
    intro d hd
    rcases (hmem e d).1 hd with h | h
    · exact he (congrArg Prod.fst h)
    · exact he' (congrArg Prod.fst h)
  · have hne : x.1 ≠ edge := hne
    refine ⟨x.1, x.2, by simp [hne], (hmem _ _).2 (Or.inl rfl), hne, ?_⟩
    intro e he he'
    rw [Option.eq_none_iff_forall_ne_some]
    intro d hd
    rcases (hmem e d).1 hd with h | h
    · exact he' (congrArg Prod.fst h)
    · exact he (congrArg Prod.fst h)

/-! ### The cases of a removal -/

theorem Holds.eraseInPlace (hn : n.Holds path stem) (id : NodeId) (hs : n.Shaped isRoot stem)
    {edge : Edge} {v : V} (hload : n.load edge = some (.leaf ⟨key, v⟩))
    (hkeep : isRoot = false → ¬ (n.kind = .node4 ∧ n.entryCount ≤ 2) ∧
      ∀ b, edge = .byte b → ¬ n.kind.shouldShrink (n.count - 1)) :
    ∃ p, n.eraseInPlace edge v = .ok (.patched p) ∧ p.old = some v ∧
      Edit id key none isRoot path n p.change p.retired := by
  obtain ⟨hkey, hedge⟩ := (hn.under edge _ hload).edge_of_has (Node.Has.leaf _)
  have hsome : (n.load edge).isSome := by
    rw [hload]
    rfl
  have halters := (alters_erase hn.sound hsome).withLock n.lock.stepped
  refine ⟨⟨.inPlace { n.erase edge with lock := n.lock.stepped }, some v, none, none⟩, ?_, rfl, ?_⟩
  · unfold Branch.eraseInPlace
    rw [hn.idle.writeSection]
    rfl
  · refine .leaf hn hkey hedge ?_ halters rfl (hs.erase hn.sound hsome halters hkeep)
    intro c hc
    rw [hload] at hc
    cases hc
    exact ⟨v, rfl⟩

/-- A node can be rebuilt one kind smaller without the child under a byte, if the others fit. -/
theorem exists_shrunk (hn : n.body.Sound) {b : UInt8} (hsome : (n.load (.byte b)).isSome)
    (hfit : n.count - 1 ≤ n.kind.shrunk.capacity) (id : NodeId) :
    ∃ m, n.rebuild n.kind.shrunk (some b) id = .ok m ∧
      n.Resizes m id n.kind.shrunk (.byte b) none ∧ m.count + 1 = n.count := by
  have halters := alters_erase hn hsome
  have hcount : (n.erase (.byte b)).count + (if (n.load (.byte b)).isSome then 1 else 0) =
    n.count + 0 := halters.count_eq hn
  rw [if_pos hsome] at hcount
  have hlen : (listing fun a => n.without (some b) (.byte a)).length = (n.erase (.byte b)).count := by
    rw [count_eq_length_listing halters.sound, halters.load_eq]
    rfl
  obtain ⟨m, hm, hid, hlock, hstem, hkind, hsound, hload⟩ :=
    exists_rebuild hn n.kind.shrunk (some b) id (by omega)
  refine ⟨m, hm, ⟨hid, hlock, hstem, hkind, hsound, hload⟩, ?_⟩
  rw [count_eq_length_listing hsound, hload, hlen, hcount]
  rfl

theorem Holds.shrink (hn : n.Holds path stem) (id : NodeId) (hs : n.Shaped false stem) {b : UInt8}
    {v : V} (hload : n.load (.byte b) = some (.leaf ⟨key, v⟩))
    (hshrink : n.kind.shouldShrink (n.count - 1) = true) :
    ∃ p, n.shrink b v id = .ok (.patched p) ∧ p.old = some v ∧
      Edit id key none false path n p.change p.retired := by
  obtain ⟨hkey, hedge⟩ := (hn.under (.byte b) _ hload).edge_of_has (Node.Has.leaf _)
  have hsome : (n.load (.byte b)).isSome := by
    rw [hload]
    rfl
  obtain ⟨hk, hle⟩ := Kind.shouldShrink_iff.1 hshrink
  have hlt := hs.2.shrunk_lt hk
  obtain ⟨m, hm, hresizes, hcount⟩ := exists_shrunk hn.sound hsome hle id
  -- one child less is exactly what the smaller kind holds
  have hexact : m.count = n.kind.shrunk.capacity := by omega
  have hshape : m.Shaped false stem := by
    have hfour := Kind.four_le_capacity n.kind.shrunk
    have hentries := count_le_entryCount m
    refine ⟨by omega, ?_⟩
    rw [hresizes.kind_eq, hexact]
    exact Kind.isLeast_capacity _
  have hstem : m.stem = n.stem := hresizes.stem_eq.trans hn.rebuilt_stem
  refine ⟨⟨.relinked (.inner m), some v, some .shrink, some n.retired⟩, ?_, rfl, ?_⟩
  · unfold Branch.shrink
    rw [hn.idle.lastSection]
    show (n.rebuild n.kind.shrunk (some b) id >>= _) = _
    rw [hm]
    rfl
  · refine .resized hn hkey hedge ?_ hresizes.id_eq hresizes.lock_eq hstem hresizes.sound
      hresizes.load_eq hshape
    intro c hc
    rw [hload] at hc
    cases hc
    exact ⟨v, rfl⟩

theorem Holds.collapse (hn : n.Holds path stem) (id : NodeId) (hs : n.Shaped false stem)
    {edge : Edge} {v : V} (hload : n.load edge = some (.leaf ⟨key, v⟩)) (hle : n.entryCount ≤ 2) :
    ∃ p, n.collapse key path.length edge v = .ok (.patched p) ∧ p.old = some v ∧
      Edit id key none false path n p.change p.retired := by
  obtain ⟨hkey, -⟩ := (hn.under edge _ hload).edge_of_has (Node.Has.leaf _)
  obtain ⟨edge', c, hfind, hload', hne, hrest⟩ :=
    exists_other hn.sound (Nat.le_antisymm hle hs.1) hload
  have hstart : ∀ change : Change V, (n.survivor key path.length edge' c).map Change.relinked =
      .ok change → n.collapse key path.length edge v = .ok (.patched ⟨change, some v,
        some .collapse, some n.retired⟩) := by
    intro change hchange
    unfold Branch.collapse
    rw [hn.idle.lastSection, hfind]
    show ((n.survivor key path.length edge' c).map Change.relinked >>= _) = _
    rw [hchange]
    rfl
  cases c with
  | leaf l =>
    refine ⟨_, hstart (.relinked (.leaf l)) ?_, rfl, ?_⟩
    · cases edge' <;> rfl
    · exact .collapsedLeaf hn rfl hload hload' hne hrest
  | inner m =>
    obtain ⟨b, rfl⟩ := edge_of_load_inner hload'
    obtain ⟨below, hm, -⟩ := hn.valid_of_load_inner hload'
    refine ⟨_, hstart (.relinked (.inner (m.merge stem b))) ?_, rfl, ?_⟩
    · have hslice : key.slice path.length n.stem.length = stem := by
        obtain ⟨more, rfl⟩ := hkey
        unfold Key.slice
        rw [hn.stem_length, List.append_assoc, List.drop_left, List.take_left]
      have hlen : path.length + n.stem.length ≤ key.length := by
        rw [hn.stem_length, ← List.length_append]
        exact hkey.length_le
      unfold Branch.survivor mergedStem
      dsimp only
      rw [hm.idle.writeSection, hslice]
      show (if path.length + n.stem.length ≤ key.length then
          Except.ok (Node.inner { m with lock := m.lock.stepped, stem := _ })
        else Except.error Fault.shortKey).map Change.relinked = _
      rw [if_pos hlen, hn.stem_length]
      rfl
    · exact .collapsedInner hn rfl hload hload' hne hrest

/-- What removing a leaf of a node other than the root comes to. -/
theorem Holds.unlink (hn : n.Holds path stem) (id : NodeId) (hs : n.Shaped false stem)
    {edge : Edge} {v : V} (hload : n.load edge = some (.leaf ⟨key, v⟩)) :
    ∃ p, n.unlink key path.length edge v id = .ok (.patched p) ∧ p.old = some v ∧
      Edit id key none false path n p.change p.retired := by
  unfold Branch.unlink
  by_cases hcollapse : n.kind = .node4 ∧ n.entryCount ≤ 2
  · rw [if_pos hcollapse]
    exact hn.collapse id hs hload hcollapse.2
  · rw [if_neg hcollapse]
    cases edge with
    | terminal => exact hn.eraseInPlace id hs hload fun _ => ⟨hcollapse, fun b hb => by cases hb⟩
    | byte b =>
      by_cases hshrink : n.kind.shouldShrink (n.count - 1) = true
      · obtain ⟨p, hp, hold, hedit⟩ := hn.shrink id hs hload hshrink
        refine ⟨p, ?_, hold, hedit⟩
        show (if n.kind.shouldShrink (n.count - 1) = true then _ else _) = _
        rw [if_pos hshrink]
        exact hp
      · obtain ⟨p, hp, hold, hedit⟩ :=
          hn.eraseInPlace id hs hload fun _ => ⟨hcollapse, fun _ _ => hshrink⟩
        refine ⟨p, ?_, hold, hedit⟩
        show (if n.kind.shouldShrink (n.count - 1) = true then _ else _) = _
        rw [if_neg hshrink]
        exact hp

/-- What removing a leaf comes to. -/
theorem Holds.removeLeaf (hn : n.Holds path stem) (id : NodeId) (hs : n.Shaped isRoot stem)
    {edge : Edge} {v : V} (hload : n.load edge = some (.leaf ⟨key, v⟩)) :
    ∃ p, (if isRoot = true then n.eraseInPlace edge v else n.unlink key path.length edge v id) =
        .ok (.patched p) ∧ p.old = some v ∧ Edit id key none isRoot path n p.change p.retired := by
  cases isRoot with
  | true => exact hn.eraseInPlace id hs hload fun hroot => by cases hroot
  | false => exact hn.unlink id hs hload

end Branch

/-! ### The whole removal -/

/-- What an attempt to remove `key` may come to. -/
def Outcome.Removes (id : NodeId) (key : Key) (isRoot : Bool) (path : Key) (n : Inner V) :
    Outcome V → Prop
  | .unchanged found => found = none
  | .patched p => p.old.isSome ∧ Edit id key none isRoot path n p.change p.retired

/-- Removing a key below a valid node succeeds. It reports the value that the key had, and if there
    is one, it comes to an edit that takes the leaf out. -/
theorem Branch.Valid.remove (key : Key) (id : NodeId) {n : Inner V} {isRoot : Bool} {path : Key}
    (h : n.Valid isRoot path) :
    ∃ out, n.remove key id isRoot path.length = .ok out ∧
      (∀ v, out.old = some v ↔ (Node.inner n).Has ⟨key, v⟩) ∧
      out.Removes id key isRoot path n := by
  obtain ⟨stem, hn, hs⟩ := h
  rw [Branch.remove, hn.liveSnapshot]
  show ∃ out, (if n.stem.admits key path.length then _ else _) = _ ∧ _
  by_cases hadm : n.stem.admits key path.length = true
  · rw [if_pos hadm]
    have hdepth : path.length + n.stem.length = (path ++ stem).length := by
      rw [hn.stem_length, List.length_append]
    split
    · rename_i hload
      rw [hdepth] at hload
      refine ⟨_, rfl, ?_, rfl⟩
      intro v
      exact iff_of_false (by simp [Outcome.old]) (hn.not_has_of_free rfl hload v)
    · rename_i l hload
      rw [hdepth] at hload ⊢
      by_cases hkey : l.key = key
      · rw [if_pos hkey]
        subst hkey
        obtain ⟨p, hp, hold, hedit⟩ := hn.removeLeaf id hs hload
        refine ⟨_, hp, ?_, ?_, hedit⟩
        · intro v
          rw [← hn.value_iff_of_leaf hload, ← hold]
          rfl
        · rw [hold]
          rfl
      · rw [if_neg hkey]
        refine ⟨_, rfl, ?_, rfl⟩
        intro v
        exact iff_of_false (by simp [Outcome.old]) (hn.not_has_of_leaf hload hkey v)
    · rename_i m hload
      have hlt := lt_length_of_load hload
      rw [hdepth] at hload
      obtain ⟨b, hb⟩ := edge_of_load_inner hload
      rw [hb] at hload
      obtain ⟨out, hout, hold, hremoves⟩ := Valid.remove key id (hn.valid_of_load_inner hload)
      rw [length_path_append_byte, ← hn.stem_length] at hout
      rw [hout]
      have hreport : ∀ v, out.old = some v ↔ (Node.inner n).Has ⟨key, v⟩ := by
        intro v
        rw [hold v, hn.has_child_iff hb hload]
      rw [hdepth, hb]
      cases out with
      | unchanged found => exact ⟨_, rfl, hreport, hremoves⟩
      | patched p =>
        obtain ⟨v, hv⟩ := Option.isSome_iff_exists.1 hremoves.1
        have hkey : path ++ stem ++ [b] <+: key :=
          (hn.under (.byte b) _ hload).prefix_of_has ((hold v).1 hv)
        obtain ⟨q, hq, hqold, hedit⟩ := hn.lift hs hload hkey hremoves.2
        refine ⟨_, hq, ?_, ?_, hedit⟩
        · intro w
          rw [← hreport w]
          exact iff_of_eq (congrArg (· = some w) hqold)
        · rw [hqold]
          exact hremoves.1
  · rw [if_neg hadm]
    refine ⟨_, rfl, ?_, rfl⟩
    intro v
    refine iff_of_false (by simp [Outcome.old]) ?_
    intro hhas
    exact hadm (hn.admits (hn.prefix_of_has hhas))
termination_by key.length - path.length
decreasing_by
  simp only [List.length_append, List.length_singleton]
  have := hn.stem_length
  omega

end RadixStore
