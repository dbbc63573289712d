import Mathlib
import RadixStore.Proofs.Node.Edges

/-!
# Walking through a node

A node that is asked again and again for the entry past the one it gave last goes through all entries
past the position where the walk began, in order and each of them once. From the start of a direction
on these are all entries of the node, and a walk in the other direction is the reverse.
-/

namespace RadixStore

variable {V : Type}

/-! ### Positions -/

namespace Edge

/-- The edge at a position. -/
def ofPosition (p : Int) : Edge :=
  if 1 ≤ p ∧ p ≤ 256 then .byte (UInt8.ofNat (p - 1).toNat) else .terminal

theorem ofPosition_position (e : Edge) : ofPosition e.position = e := by
  unfold ofPosition
  cases e with
  | terminal => exact if_neg (by decide)
  | byte b =>
    have hb := b.toNat_lt
    have hpred : ((b.toNat : Int) + 1 - 1).toNat = b.toNat := by omega
    rw [position_byte, if_pos (by omega), hpred, UInt8.ofNat_toNat]

end Edge

namespace Direction

variable {α : Type}

/-- What is given in ascending order, in the order of the direction. -/
def along (dir : Direction) (xs : List α) : List α :=
  match dir with
  | .forward => xs
  | .backward => xs.reverse

theorem mem_along {dir : Direction} {xs : List α} {x : α} : x ∈ dir.along xs ↔ x ∈ xs := by
  cases dir with
  | forward => exact Iff.rfl
  | backward => exact List.mem_reverse

/-- What ascends follows any direction when it is put along it. -/
theorem pairwise_along {R : Direction → α → α → Prop}
    (hflip : ∀ x y, R .forward x y → R .backward y x) {xs : List α} (h : xs.Pairwise (R .forward))
    (dir : Direction) : (dir.along xs).Pairwise (R dir) := by
  cases dir with
  | forward => exact h
  | backward =>
    refine List.pairwise_reverse.2 (h.imp ?_)
    intro x y hxy
    exact hflip x y hxy

/-- How many positions may still come. -/
def remaining (dir : Direction) (pos : Int) : Nat :=
  match dir with
  | .forward => (256 - pos).toNat
  | .backward => pos.toNat

theorem remaining_lt {dir : Direction} {pos : Int} {e : Edge} (h : dir.Passes pos e.position) :
    dir.remaining e.position < dir.remaining pos := by
  have hb := e.position_bounds
  cases dir with
  | forward =>
    have hlt : pos < e.position := h
    show (256 - e.position).toNat < (256 - pos).toNat
    omega
  | backward =>
    have hlt : e.position < pos := h
    show e.position.toNat < pos.toNat
    omega

/-- In a list that follows the direction, the entries past a position are the first one that is found
    there and the entries past that one. -/
theorem filter_passes {dir : Direction} (f : α → Int) {xs : List α}
    (hs : xs.Pairwise fun x y => dir.Passes (f x) (f y)) {pos : Int} {x : α}
    (h : xs.find? (fun y => dir.Passes pos (f y)) = some x) :
    xs.filter (fun y => dir.Passes pos (f y)) = x :: xs.filter fun y => dir.Passes (f x) (f y) := by
  obtain ⟨hx, before, after, rfl, hbefore⟩ := List.find?_eq_some_iff_append.1 h
  have hx : dir.Passes pos (f x) := of_decide_eq_true hx
  obtain ⟨-, hrest, hcross⟩ := List.pairwise_append.1 hs
  have hafter := (List.pairwise_cons.1 hrest).1
  have hnone : before.filter (fun y => dir.Passes pos (f y)) = [] := by
    rw [List.filter_eq_nil_iff]
    intro y hy
    simpa using hbefore y hy
  have hnone' : before.filter (fun y => dir.Passes (f x) (f y)) = [] := by
    rw [List.filter_eq_nil_iff]
    intro y hy hpast
    have hyx := hcross y hy x List.mem_cons_self
    exact not_passes_self dir _ (hyx.trans (of_decide_eq_true hpast))
  have hall : after.filter (fun y => dir.Passes pos (f y)) = after := by
    rw [List.filter_eq_self]
    intro y hy
    exact decide_eq_true (hx.trans (hafter y hy))
  have hall' : after.filter (fun y => dir.Passes (f x) (f y)) = after := by
    rw [List.filter_eq_self]
    intro y hy
    exact decide_eq_true (hafter y hy)
  rw [List.filter_append, List.filter_append, hnone, hnone', List.nil_append, List.nil_append,
    List.filter_cons_of_pos (by simpa using hx),
    List.filter_cons_of_neg (by simpa using not_passes_self dir _), hall, hall']

end Direction

/-! ### The entry past a position lies past it -/

namespace Body

variable {α : Type} {body : Body α} {b : UInt8} {e : UInt8 × α}

theorem le_of_childFrom (h : body.childFrom b = some e) : b ≤ e.1 := by
  cases body with
  | node4 f | node16 f =>
    have h : f.entries.find? (fun e => b ≤ e.1) = some e := h
    simpa using List.find?_some h
  | node48 x | node256 d =>
    obtain ⟨a, ha, he⟩ := List.exists_of_findSome?_eq_some h
    obtain ⟨c, -, rfl⟩ := Option.map_eq_some_iff.1 he
    exact mem_bytesFrom.1 ha

theorem le_of_childUpTo (h : body.childUpTo b = some e) : e.1 ≤ b := by
  cases body with
  | node4 f | node16 f =>
    have h : f.entries.reverse.find? (fun e => e.1 ≤ b) = some e := h
    simpa using List.find?_some h
  | node48 x | node256 d =>
    obtain ⟨a, ha, he⟩ := List.exists_of_findSome?_eq_some h
    obtain ⟨c, -, rfl⟩ := Option.map_eq_some_iff.1 he
    exact mem_bytesUpTo.1 ha

end Body

namespace Branch

variable {n : Inner V} {dir : Direction} {pos p : Int} {c : Node V}

theorem exists_edge_of_childAfter (h : n.childAfter pos = some (p, c)) :
    ∃ e : Edge, e.position = p ∧ pos < p := by
  unfold childAfter at h
  split at h
  · obtain ⟨⟨b, d⟩, hfound, heq⟩ := Option.map_eq_some_iff.1 h
    cases heq
    have hb := Body.le_of_childFrom hfound
    rw [UInt8.le_iff_toNat_le, UInt8.toNat_ofNat', Nat.mod_eq_of_lt (by omega)] at hb
    refine ⟨.byte b, rfl, ?_⟩
    rw [Edge.position_byte]
    omega
  · cases h

theorem exists_edge_of_childBefore (h : n.childBefore pos = some (p, c)) :
    ∃ e : Edge, e.position = p ∧ p < pos := by
  unfold childBefore at h
  split at h
  · obtain ⟨⟨b, d⟩, hfound, heq⟩ := Option.map_eq_some_iff.1 h
    cases heq
    have hb := Body.le_of_childUpTo hfound
    rw [UInt8.le_iff_toNat_le, UInt8.toNat_ofNat', Nat.mod_eq_of_lt (by omega)] at hb
    refine ⟨.byte b, rfl, ?_⟩
    rw [Edge.position_byte]
    omega
  · cases h

theorem exists_edge_of_nextEntry (h : n.nextEntry pos = some (p, c)) :
    ∃ e : Edge, e.position = p ∧ pos < p := by
  unfold nextEntry at h
  split at h
  · split at h
    · cases h
      exact ⟨.terminal, rfl, ‹_›⟩
    · exact exists_edge_of_childAfter h
  · exact exists_edge_of_childAfter h

theorem exists_edge_of_prevEntry (h : n.prevEntry pos = some (p, c)) :
    ∃ e : Edge, e.position = p ∧ p < pos := by
  unfold prevEntry at h
  split at h
  · rename_i hbefore
    exact exists_edge_of_childBefore (hbefore.trans h)
  · split at h
    · split at h
      · cases h
        exact ⟨.terminal, rfl, ‹_›⟩
      · cases h
    · cases h

theorem remaining_lt_of_entryPast (h : n.entryPast dir pos = some (p, c)) :
    dir.remaining p < dir.remaining pos := by
  have hedge : ∃ e : Edge, e.position = p ∧ dir.Passes pos p := by
    cases dir with
    | forward => exact exists_edge_of_nextEntry h
    | backward => exact exists_edge_of_prevEntry h
  obtain ⟨e, rfl, hpast⟩ := hedge
  exact Direction.remaining_lt hpast

/-! ### The walk -/

/-- The entries past a position, one after the other. -/
def walk (n : Inner V) (dir : Direction) (pos : Int) : List (Edge × Node V) :=
  match _h : n.entryPast dir pos with
  | none => []
  | some (p, c) => (.ofPosition p, c) :: n.walk dir p
termination_by dir.remaining pos
decreasing_by exact remaining_lt_of_entryPast _h

theorem along_entries (h : n.body.Sound) (dir : Direction) :
    (dir.along n.entries).Pairwise fun d e => dir.Passes d.1.position e.1.position :=
  Direction.pairwise_along
    (R := fun dir (d e : Edge × Node V) => dir.Passes d.1.position e.1.position)
    (fun _ _ hlt => hlt) (entries_ascending h) dir

/-- The entry past a position is the first of the entries listed that lies there. -/
theorem entryPast_eq (h : n.body.Sound) (dir : Direction) (pos : Int) :
    n.entryPast dir pos =
      ((dir.along n.entries).find? fun e => dir.Passes pos e.1.position).map
        fun e => (e.1.position, e.2) := by
  have hnear := nearest_entryPast h dir pos
  have hmem : ∀ {edge c}, (edge, c) ∈ dir.along n.entries ↔ n.load edge = some c :=
    Direction.mem_along.trans (mem_entries h)
  cases hfind : (dir.along n.entries).find? fun e => dir.Passes pos e.1.position with
  | none =>
    cases hentry : n.entryPast dir pos with
    | none => rfl
    | some e =>
      rw [hentry] at hnear
      obtain ⟨edge, hp, hload, hpast, -⟩ := hnear
      have hnot := List.find?_eq_none.1 hfind _ (hmem.2 hload)
      exact absurd (decide_eq_true (hp ▸ hpast)) hnot
  | some d =>
    have hfilter := Direction.filter_passes (fun e : Edge × Node V => e.1.position) (along_entries h dir) hfind
    have hpast : dir.Passes pos d.1.position := by simpa using List.find?_some hfind
    have hload : n.load d.1 = some d.2 := hmem.1 (List.mem_of_find?_eq_some hfind)
    cases hentry : n.entryPast dir pos with
    | none =>
      rw [hentry] at hnear
      rw [hnear d.1 trivial hpast] at hload
      cases hload
    | some e =>
      rw [hentry] at hnear
      obtain ⟨edge, hp, hload', hpast', hbetween⟩ := hnear
      have hin : (edge, e.2) ∈ (dir.along n.entries).filter fun e => dir.Passes pos e.1.position :=
        List.mem_filter.2 ⟨hmem.2 hload', decide_eq_true (hp ▸ hpast')⟩
      rw [hfilter, List.mem_cons, List.mem_filter] at hin
      rcases hin with rfl | ⟨-, hlater⟩
      · rw [Option.map_some, hp]
      · -- the entry listed would lie nearer
        have hlater : dir.Passes d.1.position e.1 := hp ▸ of_decide_eq_true hlater
        rw [hbetween d.1 trivial hpast hlater] at hload
        cases hload

/-- A walk goes through the entries past its position. -/
theorem walk_eq_filter (h : n.body.Sound) (dir : Direction) (pos : Int) :
    n.walk dir pos = (dir.along n.entries).filter fun e => dir.Passes pos e.1.position := by
  induction pos using walk.induct n dir with
  | case1 pos hentry =>
    rw [walk, hentry]
    rw [entryPast_eq h, Option.map_eq_none_iff] at hentry
    exact (List.filter_eq_nil_iff.2 (List.find?_eq_none.1 hentry)).symm
  | case2 pos p c hentry ih =>
    rw [walk, hentry]
    rw [entryPast_eq h, Option.map_eq_some_iff] at hentry
    obtain ⟨⟨edge, d⟩, hfind, heq⟩ := hentry
    cases heq
    dsimp only at ih ⊢
    rw [Direction.filter_passes (fun e : Edge × Node V => e.1.position) (along_entries h dir) hfind,
      Edge.ofPosition_position, ih]

/-- A walk from the start goes through all entries. -/
theorem walk_start (h : n.body.Sound) (dir : Direction) :
    n.walk dir dir.start = dir.along n.entries := by
  rw [walk_eq_filter h, List.filter_eq_self]
  intro e _
  exact decide_eq_true (Direction.passes_start dir e.1)

end Branch

end RadixStore
