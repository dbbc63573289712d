import Mathlib
import RadixStore.Proofs.Tree.Map
import RadixStore.Proofs.Tree.Contents

/-!
# Trees that store the same at the same places

A valid tree is known from two things: its places, which are what is left of it when the values are left
out, and the value that it stores under each key. There is nothing else in it. In particular a body with
48 slots has no child in a slot that its index does not name, and the counts of the bodies and the
identities of the nodes are part of the places.
-/

namespace RadixStore

variable {V W α β : Type}

/-! ### Bodies -/

namespace Slots

variable {s t : Slots α}

theorem eq_of_at? (hlength : s.length = t.length) (h : ∀ i, s.at? i = t.at? i) : s = t := by
  refine List.ext_getElem hlength fun i hi hj => ?_
  have hat := h i
  simpa [at?, hi, hj] using hat

/-- The places that are taken, ascending. -/
def takenAt (s : Slots α) : List Nat :=
  (List.range s.length).filter fun i => (s.at? i).isSome

theorem mem_takenAt {i : Nat} : i ∈ s.takenAt ↔ (s.at? i).isSome := by
  simp only [takenAt, List.mem_filter, List.mem_range, and_iff_right_iff_imp]
  intro hi
  obtain ⟨c, hc⟩ := Option.isSome_iff_exists.1 hi
  exact lt_length_of_at? hc

theorem length_takenAt (s : Slots α) : s.takenAt.length = s.taken := by
  have hlist : s = (List.range s.length).map s.at? := by
    refine List.ext_getElem (by simp) fun i hi _ => ?_
    simp [at?, hi]
  have htaken : s.taken = ((List.range s.length).map s.at?).countP Option.isSome :=
    congrArg (List.countP Option.isSome) hlist
  rw [htaken, List.countP_map, List.countP_eq_length_filter]
  rfl

end Slots

namespace Indexed

variable {x : Indexed α}

/-- As many slots are taken as bytes have children, so each slot that is taken has its byte. -/
theorem Laid.exists_name (h : x.Laid) (hcount : x.count = (listing x.child?).length) {i : Nat}
    (hi : (Slots.at? x.slots i).isSome) : ∃ b, x.slot? b = some i := by
  -- the slots in which the children are, listed by their bytes
  let used := (listing x.child?).filterMap fun e => x.slot? e.1
  have hslot : ∀ e ∈ listing x.child?, ∃ j, x.slot? e.1 = some j ∧ (Slots.at? x.slots j).isSome := by
    intro e he
    obtain ⟨j, hj, hchild⟩ := Option.bind_eq_some_iff.1 (mem_listing.1 he)
    exact ⟨j, hj, by rw [hchild]; rfl⟩
  have hnodup : used.Nodup := by
    have hbytes := (listing_ascending x.child?).imp fun hlt => UInt8.ne_of_lt hlt
    refine List.pairwise_filterMap.2 (hbytes.imp ?_)
    rintro d e hne j hj k hk rfl
    exact hne (h.once d.1 e.1 j hj hk)
  have hsubset : used ⊆ Slots.takenAt x.slots := by
    intro j hj
    obtain ⟨e, he, hej⟩ := List.mem_filterMap.1 hj
    obtain ⟨k, hk, htaken⟩ := hslot e he
    rw [hk, Option.some_inj] at hej
    exact Slots.mem_takenAt.2 (hej ▸ htaken)
  have hlength : (Slots.takenAt x.slots).length ≤ used.length := by
    have hused : used.length = (listing x.child?).length :=
      List.filterMap_length_eq_length.2 fun e he => by
        obtain ⟨j, hj, -⟩ := hslot e he
        simp [hj]
    rw [Slots.length_takenAt, h.taken, hcount, hused]
  have hperm := (List.subperm_of_subset hnodup hsubset).perm_of_length_le hlength
  obtain ⟨e, -, he⟩ := List.mem_filterMap.1 (hperm.mem_iff.2 (Slots.mem_takenAt.2 hi))
  exact ⟨e.1, he⟩

end Indexed

namespace Body

variable {x y : Body α}

/-- Bodies are the same if they are laid out the same and have the same children. -/
theorem Sound.eq_of_map (hx : x.Sound) (hy : y.Sound) {f : α → β} (hmap : x.map f = y.map f)
    (hchild : x.child? = y.child?) : x = y := by
  have hlist : x.toList = y.toList := by rw [hx.toList_eq, hy.toList_eq, hchild]
  cases x with
  | node4 f =>
    cases y with
    | node4 g => exact congrArg (fun es => node4 ⟨es⟩) hlist
    | _ => cases hmap
  | node16 f =>
    cases y with
    | node16 g => exact congrArg (fun es => node16 ⟨es⟩) hlist
    | _ => cases hmap
  | node48 x =>
    cases y with
    | node48 y =>
      obtain ⟨count, index, slots⟩ := x
      obtain ⟨count', index', slots'⟩ := y
      simp only [map, Indexed.map, node48.injEq, Indexed.mk.injEq] at hmap
      obtain ⟨rfl, rfl, hslots⟩ := hmap
      have hlength : slots.length = slots'.length := hx.laid.slots_length.trans hy.laid.slots_length.symm
      have hsame : slots = slots' := by
        refine Slots.eq_of_at? hlength fun i => ?_
        have hfree : (Slots.at? slots i).isSome = (Slots.at? slots' i).isSome := by
          have hat := congrArg (fun s => (Slots.at? s i).isSome) hslots
          simpa using hat
        cases hi : (Slots.at? slots i).isSome with
        | false =>
          have hi' := hfree.symm.trans hi
          rw [Option.isSome_eq_false_iff, Option.isNone_iff_eq_none] at hi hi'
          rw [hi, hi']
        | true =>
          obtain ⟨b, hb⟩ := hx.laid.exists_name hx.count_eq hi
          have hchildren := congrFun hchild b
          have hb' : Indexed.slot? ⟨count, index, slots'⟩ b = some i := hb
          simpa [child?, Indexed.child?, hb, hb'] using hchildren
      rw [hsame]
    | _ => cases hmap
  | node256 d =>
    cases y with
    | node256 e =>
      obtain ⟨count, slots⟩ := d
      obtain ⟨count', slots'⟩ := e
      simp only [map, Direct.map, node256.injEq, Direct.mk.injEq] at hmap
      obtain ⟨rfl, -⟩ := hmap
      have hlength : slots.length = 256 := hx.laid
      have hlength' : slots'.length = 256 := hy.laid
      have hsame : slots = slots' := by
        refine Slots.eq_of_at? (hlength.trans hlength'.symm) fun i => ?_
        by_cases hi : i < 256
        · have hat : Slots.at? slots (UInt8.ofNat i).toNat = Slots.at? slots' (UInt8.ofNat i).toNat :=
            congrFun hchild (UInt8.ofNat i)
          rwa [UInt8.toNat_ofNat_of_lt' hi] at hat
        · have hnone : ∀ r : Slots α, r.length = 256 → r.at? i = none := by
            intro r hr
            rw [Slots.at?, List.getElem?_eq_none (by omega), Option.join_none]
          rw [hnone slots hlength, hnone slots' hlength']
      rw [hsame]
    | _ => cases hmap

end Body

/-! ### Nodes -/

namespace Branch

/-- Nodes are the same if they have the same places, and the same leaves below them. The recursion goes
    down the first of them. -/
theorem Valid.eq_of_map {n m : Inner V} {isRoot isRoot' : Bool} {path path' : Key}
    (hn : n.Valid isRoot path) (hm : m.Valid isRoot' path') (hlength : path.length = path'.length)
    {g : V → W} (hmap : n.map g = m.map g)
    (hhas : ∀ l, (Node.inner n).Has l → (Node.inner m).Has l) : n = m := by
  obtain ⟨stem, hn, -⟩ := hn
  obtain ⟨stem', hm, -⟩ := hm
  have hstem : n.stem = m.stem := congrArg (fun k : Inner W => k.stem) hmap
  have hdepth : (path ++ stem).length = (path' ++ stem').length := by
    rw [List.length_append, List.length_append, ← hn.stem_length, ← hm.stem_length, hstem, hlength]
  -- a leaf below a child is below the child of the other node on the same edge
  have hbelow : ∀ edge c d l, n.load edge = some c → m.load edge = some d → c.Has l → d.Has l := by
    intro edge c d l hc hd hl
    have hedge := ((hn.under edge c hc).edge_of_has hl).2
    exact hm.has_of_edge (hhas l (Node.Has.inner hc hl)) (hdepth ▸ hedge) hd
  have hchildren : ∀ edge, (n.load edge).map (Node.map g) = (m.load edge).map (Node.map g) := by
    intro edge
    rw [← load_map, hmap, load_map]
  have hload : ∀ edge, n.load edge = m.load edge := by
    intro edge
    have hchild := hchildren edge
    cases hc : n.load edge with
    | none =>
      rw [hc, Option.map_none, eq_comm, Option.map_eq_none_iff] at hchild
      exact hchild.symm
    | some c =>
      rw [hc, Option.map_some, eq_comm, Option.map_eq_some_iff] at hchild
      obtain ⟨d, hd, hcd⟩ := hchild
      rw [hd]
      cases c with
      | leaf k =>
        cases d with
        | leaf k' => rw [Node.has_leaf_iff.1 (hbelow edge _ _ k hc hd (Node.Has.leaf k))]
        | inner d => simp at hcd
      | inner c =>
        cases d with
        | leaf k => simp at hcd
        | inner d =>
          obtain ⟨b, rfl⟩ := edge_of_load_inner hc
          have hsize := sizeOf_lt_of_entry ((mem_entries hn.sound).2 hc)
          have hcd : c.map g = d.map g := by simpa using hcd.symm
          have hbyte : (path ++ stem ++ [b]).length = (path' ++ stem' ++ [b]).length := by
            rw [List.length_append, @List.length_append _ (path' ++ stem'), hdepth]
          have hsame := (hn.valid_of_load_inner hc).eq_of_map (hm.valid_of_load_inner hd) hbyte hcd
            fun l => hbelow (.byte b) (.inner c) (.inner d) l hc hd
          rw [hsame]
  obtain ⟨id, lock, stem, terminal, body⟩ := n
  obtain ⟨id', lock', stem', terminal', body'⟩ := m
  have hid : id = id' := congrArg (fun k : Inner W => k.id) hmap
  have hlock : lock = lock' := congrArg (fun k : Inner W => k.lock) hmap
  have hterminal : terminal = terminal' :=
    Option.map_injective (fun _ _ h => Node.leaf.inj h) (hload .terminal)
  have hbody : body = body' :=
    hn.sound.eq_of_map hm.sound (congrArg (fun k : Inner W => k.body) hmap) (funext fun b => hload (.byte b))
  rw [hid, hlock, hterminal, hbody, show stem = stem' from hstem]
termination_by sizeOf n

end Branch

/-! ### Trees -/

/-- Trees that store the same at the same places are the same. -/
theorem Tree.Valid.ext_of_places {t u : Tree V} (ht : t.Valid) (hu : u.Valid)
    {g : V → W} (hplaces : t.map g = u.map g) (hget : ∀ key, t.get? key = u.get? key) :
    t = u := by
  have hhas : ∀ l, (Node.inner t.root).Has l → (Node.inner u.root).Has l := by
    intro l hl
    rw [← hu.get?_eq_some_iff, ← hget]
    exact ht.get?_eq_some_iff.2 hl
  have hroot : t.root = u.root := ht.eq_of_map hu rfl (congrArg Tree.root hplaces) hhas
  obtain ⟨root, size, nextId⟩ := t
  obtain ⟨root', size', nextId'⟩ := u
  have hsize : size = size' := congrArg Tree.size hplaces
  have hnextId : nextId = nextId' := congrArg Tree.nextId hplaces
  rw [hsize, hnextId, show root = root' from hroot]

end RadixStore
