import Mathlib
import RadixStore.Proofs.Cursor.Trail

/-!
# The first leaf, and seeking

Below a node of a valid tree, the leaves past a position are the ones under the edges past it. The
first of them is found by going down the nearest edge each time, and the checkpoints that are left
behind lead to it. Seeking a bound leaves checkpoints at standing nodes; either the entries past the
position of the deepest are exactly the leaves past the bound below its node, or no leaf past the
bound is left below the node at which the descent came to its end.
-/

namespace RadixStore

variable {V : Type}

namespace Branch

/-- The leaf stands under an edge past the position. -/
def Ahead (n : Inner V) (dir : Direction) (pos : Int) (l : Leaf V) : Prop :=
  ∃ edge c, n.load edge = some c ∧ dir.Passes pos edge.position ∧ c.Has l

variable {n : Inner V} {path stem : Key} {dir : Direction}

theorem Ahead.has {pos : Int} {l : Leaf V} (h : n.Ahead dir pos l) : (Node.inner n).Has l := by
  obtain ⟨edge, c, hload, -, hc⟩ := h
  exact Node.Has.inner hload hc

theorem ahead_start_iff {l : Leaf V} : n.Ahead dir dir.start l ↔ (Node.inner n).Has l := by
  constructor
  · exact Ahead.has
  · intro h
    obtain ⟨edge, c, hload, hc⟩ := Node.has_inner_iff.1 h
    exact ⟨edge, c, hload, Direction.passes_start dir edge, hc⟩

theorem Holds.isPast_of_passes (hn : n.Holds path stem) {edge edge' : Edge} {c c' : Node V}
    {l l' : Leaf V} (hload : n.load edge = some c) (hc : c.Has l) (hload' : n.load edge' = some c')
    (hc' : c'.Has l') (h : dir.Passes edge.position edge'.position) :
    dir.isPast l.key l'.key = true := by
  obtain ⟨hpre, hedge⟩ := (hn.under edge c hload).edge_of_has hc
  obtain ⟨hpre', hedge'⟩ := (hn.under edge' c' hload').edge_of_has hc'
  have hne : edge ≠ edge' := by
    rintro rfl
    exact Direction.not_passes_self dir _ h
  rw [Direction.isPast_iff_passes hpre hpre' (by rw [hedge, hedge']; exact hne), hedge, hedge']
  exact h

/-- The path to a node other than the root is read off its smallest leaf. -/
theorem Valid.pathTo (hn : n.Valid false path) : n.pathTo path.length = path := by
  have hvalid := Node.valid_inner_iff.2 hn
  obtain ⟨l, hl, hhas⟩ := hvalid.exists_minLeaf n rfl
  obtain ⟨rest, hkey⟩ := hvalid.prefix_of_has hhas
  unfold Branch.pathTo
  rw [hl]
  show l.key.take path.length = path
  rw [← hkey]
  exact List.take_left

end Branch

/-- Of the leaves with `P` the leaf `l` comes first. -/
def IsNearest (dir : Direction) (P : Leaf V → Prop) (l : Leaf V) : Prop :=
  P l ∧ ∀ k, P k → k.key = l.key ∨ dir.isPast l.key k.key = true

section

variable {t : Tree V} {dir : Direction}

/-! ### The first leaf past a position -/

/-- What looking for the first leaf past a position comes to. -/
def FoundPast (t : Tree V) (dir : Direction) (n : Inner V) (pos : Int) : Option (Found V) → Prop
  | none => ∀ l, ¬ n.Ahead dir pos l
  | some f => IsNearest dir (n.Ahead dir pos) f.leaf ∧ Trail t (.leaf f.leaf.key) f.stack

/-- The nearest leaf under the nearest edge is the nearest of all that are past the position. -/
theorem Branch.Holds.isNearest_ahead {n : Inner V} {path stem : Key} (hn : n.Holds path stem)
    {pos : Int} {edge : Edge} {c : Node V} {l : Leaf V} (hload : n.load edge = some c)
    (hpast : dir.Passes pos edge.position)
    (hnone : ∀ e, True → dir.Passes pos e.position → dir.Passes e.position edge.position →
      n.load e = none)
    (hnear : IsNearest dir c.Has l) : IsNearest dir (n.Ahead dir pos) l := by
  obtain ⟨hl, hleast⟩ := hnear
  refine ⟨⟨edge, c, hload, hpast, hl⟩, ?_⟩
  rintro k ⟨edge', c', hload', hpast', hk⟩
  by_cases hedge : edge' = edge
  · subst hedge
    rw [hload] at hload'
    cases hload'
    exact hleast k hk
  · refine Or.inr (hn.isPast_of_passes hload hl hload' hk ?_)
    have hne : edge'.position ≠ edge.position := fun h => hedge (Edge.position_injective h)
    refine (Direction.passes_or_passes_of_ne hne).resolve_left ?_
    intro hbefore
    rw [hnone edge' trivial hpast' hbefore] at hload'
    cases hload'

theorem Branch.Valid.firstLeaf? (dir : Direction) (pos : Int) (hnum : t.Numbered) {n : Inner V}
    {isRoot : Bool} {path : Key} {stack : List Checkpoint} (hn : n.Valid isRoot path)
    (hreach : t.root.Reaches [] n path) (htrail : Trail t (.node path) stack) :
    FoundPast t dir n pos (n.firstLeaf? dir path ⟨n.lock.word⟩ pos stack) := by
  obtain ⟨stem, hholds, hstem⟩ := hn.exists_stem
  have hnear := Branch.nearest_entryPast hholds.sound dir pos
  have hid := hnum.lt_nextId _ hreach.owns
  rw [Branch.firstLeaf?]
  split
  · rename_i hentry
    rw [hentry] at hnear
    rintro l ⟨edge, c, hload, hpast, -⟩
    rw [hnear edge trivial hpast] at hload
    cases hload
  · rename_i p l hentry
    rw [hentry] at hnear
    obtain ⟨edge, rfl, hload, hpast, hnone⟩ := hnear
    refine ⟨hholds.isNearest_ahead hload hpast hnone ⟨Node.Has.leaf l, ?_⟩, ?_⟩
    · intro k hk
      exact Or.inl (congrArg Leaf.key (Node.has_leaf_iff.1 hk))
    · refine .step hid ?_ (Or.inr ⟨n, ⟨hreach, rfl, rfl⟩, edge, l, rfl, hload, rfl⟩) htrail
      exact (List.prefix_append path stem).trans
        (hholds.prefix_of_has (Node.Has.inner hload (Node.Has.leaf l)))
  · rename_i p m hentry
    have hsize := Branch.sizeOf_lt_of_entryPast hentry
    rw [hentry] at hnear
    obtain ⟨edge, rfl, hload, hpast, hnone⟩ := hnear
    obtain ⟨b, rfl⟩ := Branch.edge_of_load_inner hload
    have hm := hholds.valid_of_load_inner hload
    have hmreach : t.root.Reaches [] m (path ++ stem ++ [b]) :=
      hreach.trans (.child hstem hload .here)
    obtain ⟨below, hmholds, hmshape⟩ := hm
    have hpathTo : m.pathTo (path.length + n.stem.length + 1) = path ++ stem ++ [b] := by
      rw [hholds.stem_length, ← Branch.length_path_append_byte path stem b]
      exact Branch.Valid.pathTo ⟨below, hmholds, hmshape⟩
    have htrail' : Trail t (.node (path ++ stem ++ [b]))
        (⟨n.id, path, ⟨n.lock.word⟩, (Edge.byte b).position⟩ :: stack) :=
      .step hid ((List.prefix_append path stem).trans (List.prefix_append _ [b]))
        (Or.inr ⟨n, ⟨hreach, rfl, rfl⟩, stem, b, rfl, hstem, rfl⟩) htrail
    have hbelow := Branch.Valid.firstLeaf? dir dir.start hnum ⟨below, hmholds, hmshape⟩
      hmreach htrail'
    rw [hmholds.liveSnapshot]
    dsimp only
    rw [hpathTo]
    cases hfound : m.firstLeaf? dir (path ++ stem ++ [b]) ⟨m.lock.word⟩ dir.start
        (⟨n.id, path, ⟨n.lock.word⟩, (Edge.byte b).position⟩ :: stack) with
    | none =>
      -- a node other than the root has a leaf below it
      rw [hfound] at hbelow
      obtain ⟨l, -, hl⟩ := (Node.valid_inner_iff.2 ⟨below, hmholds, hmshape⟩).exists_minLeaf m rfl
      exact absurd (Branch.ahead_start_iff.2 hl) (hbelow l)
    | some f =>
      rw [hfound] at hbelow
      refine ⟨hholds.isNearest_ahead hload hpast hnone ?_, hbelow.2⟩
      refine ⟨hbelow.1.1.has, ?_⟩
      intro k hk
      exact hbelow.1.2 k (Branch.ahead_start_iff.2 hk)
termination_by sizeOf n

/-! ### Where a bound leaves a stem -/

theorem Side.within_iff_prefix {stem rest : Key} (h : Side.ofStem stem rest = .within) :
    stem <+: rest := by
  induction stem generalizing rest with
  | nil => exact List.nil_prefix
  | cons x stem ih =>
    cases rest with
    | nil => cases h
    | cons y rest =>
      unfold Side.ofStem at h
      split at h
      · cases h
      · split at h
        · cases h
        · rename_i hxy hyx
          have heq : x = y := UInt8.le_antisymm (UInt8.not_lt.1 hyx) (UInt8.not_lt.1 hxy)
          rw [heq, List.cons_prefix_cons]
          exact ⟨rfl, ih h⟩

theorem Side.append_prefix_of_within {path stem bound : Key} (hpath : path <+: bound)
    (h : Side.ofStem stem (bound.drop path.length) = .within) : path ++ stem <+: bound := by
  obtain ⟨more, rfl⟩ := hpath
  rw [List.drop_left] at h
  exact (List.prefix_append_right_inj path).2 (Side.within_iff_prefix h)

theorem Side.lt_of_above {stem rest : Key} (h : Side.ofStem stem rest = .above) (more : Key) :
    rest < stem ++ more := by
  induction stem generalizing rest with
  | nil => cases h
  | cons x stem ih =>
    cases rest with
    | nil => exact List.nil_lt_cons _ _
    | cons y rest =>
      rw [List.cons_append, List.cons_lt_cons_iff]
      unfold Side.ofStem at h
      split at h
      · cases h
      · split at h
        · rename_i hyx
          exact Or.inl hyx
        · rename_i hxy hyx
          have heq : x = y := UInt8.le_antisymm (UInt8.not_lt.1 hyx) (UInt8.not_lt.1 hxy)
          exact Or.inr ⟨heq.symm, ih h⟩

theorem Side.gt_of_below {stem rest : Key} (h : Side.ofStem stem rest = .below) (more : Key) :
    stem ++ more < rest := by
  induction stem generalizing rest with
  | nil => cases h
  | cons x stem ih =>
    cases rest with
    | nil => cases h
    | cons y rest =>
      rw [List.cons_append, List.cons_lt_cons_iff]
      unfold Side.ofStem at h
      split at h
      · rename_i hxy
        exact Or.inl hxy
      · split at h
        · cases h
        · rename_i hxy hyx
          have heq : x = y := UInt8.le_antisymm (UInt8.not_lt.1 hyx) (UInt8.not_lt.1 hxy)
          exact Or.inr ⟨heq, ih h⟩

/-- When the bound leaves the stem of a node, the keys below the node are all past it or none is. -/
theorem Side.isPast_iff {path stem bound key : Key} {side : Side} (hbound : path <+: bound)
    (hside : Side.ofStem stem (bound.drop path.length) = side) (hne : side ≠ .within)
    (hkey : path ++ stem <+: key) : dir.isPast bound key = side.isPast dir := by
  obtain ⟨rest, rfl⟩ := hbound
  obtain ⟨more, rfl⟩ := hkey
  rw [List.drop_left] at hside
  rw [List.append_assoc]
  cases side with
  | within => exact absurd rfl hne
  | above =>
    have hlt := (Key.append_lt_append_iff path _ _).2 (Side.lt_of_above hside more)
    cases dir with
    | forward => exact decide_eq_true hlt
    | backward =>
      have hback : Direction.backward.isPast (path ++ (stem ++ more)) (path ++ rest) = true :=
        decide_eq_true hlt
      exact Direction.isPast_asymm hback
  | below =>
    have hlt := (Key.append_lt_append_iff path _ _).2 (Side.gt_of_below hside more)
    cases dir with
    | forward =>
      have hback : Direction.forward.isPast (path ++ (stem ++ more)) (path ++ rest) = true :=
        decide_eq_true hlt
      exact Direction.isPast_asymm hback
    | backward => exact decide_eq_true hlt

/-! ### Seeking -/

/-- No leaf whose key starts with `path` comes after the bound. -/
def Tree.Exhausted (t : Tree V) (dir : Direction) (bound path : Key) : Prop :=
  ∀ l, (Node.inner t.root).Has l → path <+: l.key → dir.isPast bound l.key = false

/-- The leaves past the bound, of those below the node, are the ones past the position. -/
def Branch.Splits (n : Inner V) (dir : Direction) (bound : Key) (pos : Int) : Prop :=
  ∀ l, (Node.inner n).Has l → (dir.isPast bound l.key = true ↔ n.Ahead dir pos l)

/-- The checkpoints `fresh` above `rest` are ready to go on past the bound: the deepest of them
    splits the leaves below its node at the bound, or nothing is left to which they lead. -/
inductive Prepared (t : Tree V) (dir : Direction) (bound : Key) :
    List Checkpoint → List Checkpoint → Prop
  | ahead {cp : Checkpoint} {n : Inner V} {fresh rest : List Checkpoint} : cp.At t n →
      n.Splits dir bound cp.pos → cp.path <+: bound → Trail t (.node cp.path) (fresh ++ rest) →
      Prepared t dir bound (cp :: fresh) rest
  | exhausted {path : Key} {fresh rest : List Checkpoint} : t.Exhausted dir bound path →
      path <+: bound → Trail t (.node path) (fresh ++ rest) → Prepared t dir bound fresh rest

/-- The checkpoint on top of the rest may be counted among the fresh ones. -/
theorem Prepared.snoc {bound : Key} {cp : Checkpoint} {fresh rest : List Checkpoint}
    (h : Prepared t dir bound fresh (cp :: rest)) : Prepared t dir bound (fresh ++ [cp]) rest := by
  have happ : ∀ fresh : List Checkpoint, fresh ++ cp :: rest = fresh ++ [cp] ++ rest := by simp
  cases h with
  | ahead hat hsplits hpath htrail =>
    rw [happ] at htrail
    exact .ahead hat hsplits hpath htrail
  | exhausted hex hpath htrail =>
    rw [happ] at htrail
    exact .exhausted hex hpath htrail

namespace Branch

variable {n : Inner V} {path stem bound : Key}

/-- Below a node through which the bound goes, a leaf comes after the bound when its edge does, or
    when it stands under the same edge and comes after the bound there. -/
theorem Holds.isPast_iff_of_bound (hn : n.Holds path stem) (hbound : path ++ stem <+: bound)
    {edge e : Edge} (hedge : Edge.ofKey bound (path ++ stem).length = edge) {c : Node V} {l : Leaf V}
    (hload : n.load e = some c) (hc : c.Has l) :
    dir.isPast bound l.key = true ↔
      dir.Passes edge.position e.position ∨ e = edge ∧ dir.isPast bound l.key = true := by
  obtain ⟨hpre, he⟩ := (hn.under e c hload).edge_of_has hc
  by_cases hsame : e = edge
  · subst hsame
    constructor
    · intro h
      exact Or.inr ⟨rfl, h⟩
    · rintro (h | ⟨-, h⟩)
      · exact absurd h (Direction.not_passes_self dir _)
      · exact h
  · rw [Direction.isPast_iff_passes hbound hpre (by rw [hedge, he]; exact Ne.symm hsame), hedge, he]
    constructor
    · exact Or.inl
    · rintro (h | ⟨h, -⟩)
      · exact h
      · exact absurd h hsame

/-- The edge of the bound splits the leaves when nothing under it comes after the bound. -/
theorem Holds.splits (hn : n.Holds path stem) (hbound : path ++ stem <+: bound) {edge : Edge}
    (hedge : Edge.ofKey bound (path ++ stem).length = edge)
    (hnone : ∀ c l, n.load edge = some c → c.Has l → dir.isPast bound l.key = false) :
    n.Splits dir bound edge.position := by
  intro l hl
  constructor
  · intro hpast
    obtain ⟨e, c, hload, hc⟩ := Node.has_inner_iff.1 hl
    rcases (hn.isPast_iff_of_bound hbound hedge hload hc).1 hpast with h | ⟨rfl, -⟩
    · exact ⟨e, c, hload, h, hc⟩
    · rw [hnone c l hload hc] at hpast
      cases hpast
  · rintro ⟨e, c, hload, h, hc⟩
    exact (hn.isPast_iff_of_bound hbound hedge hload hc).2 (Or.inl h)

/-- When the child on the edge of the bound is a leaf past the bound, the position is stepped back
    so that the leaf is still to be visited. -/
theorem Holds.splits_stepBack (hn : n.Holds path stem) (hbound : path ++ stem <+: bound) {edge : Edge}
    (hedge : Edge.ofKey bound (path ++ stem).length = edge) {k : Leaf V}
    (hload : n.load edge = some (.leaf k)) (hpast : dir.isPast bound k.key = true) :
    n.Splits dir bound (dir.stepBack edge.position) := by
  have hpasses : ∀ q : Int, dir.Passes (dir.stepBack edge.position) q ↔
      dir.Passes edge.position q ∨ q = edge.position := by
    intro q
    cases dir with
    | forward =>
      show edge.position - 1 < q ↔ edge.position < q ∨ q = edge.position
      omega
    | backward =>
      show q < edge.position + 1 ↔ q < edge.position ∨ q = edge.position
      omega
  intro l hl
  constructor
  · intro hl'
    obtain ⟨e, c, hload', hc⟩ := Node.has_inner_iff.1 hl
    refine ⟨e, c, hload', (hpasses _).2 ?_, hc⟩
    rcases (hn.isPast_iff_of_bound hbound hedge hload' hc).1 hl' with h | ⟨rfl, -⟩
    · exact Or.inl h
    · exact Or.inr rfl
  · rintro ⟨e, c, hload', h, hc⟩
    rcases (hpasses _).1 h with h | h
    · exact (hn.isPast_iff_of_bound hbound hedge hload' hc).2 (Or.inl h)
    · have he := Edge.position_injective h
      rw [he, hload] at hload'
      cases hload'
      rw [Node.has_leaf_iff.1 hc]
      exact hpast

/-- The terminal splits the leaves when the bound ends at the node. -/
theorem Holds.splits_terminal (hn : n.Holds path stem) (hbound : path ++ stem <+: bound)
    (hend : bound[(path ++ stem).length]? = none) :
    n.Splits dir bound Edge.terminal.position := by
  have hedge := Edge.ofKey_of_getElem?_eq_none hend
  refine hn.splits hbound hedge ?_
  intro c l hload hc
  obtain ⟨hpre, he⟩ := (hn.under .terminal c hload).edge_of_has hc
  rw [Edge.eq_of_ofKey_eq_terminal hpre he, Edge.eq_of_ofKey_eq_terminal hbound hedge]
  exact Direction.isPast_irrefl dir _

/-- The edge of a leaf splits the leaves, or the position before it does. -/
theorem Holds.splits_leaf (hn : n.Holds path stem) (hbound : path ++ stem <+: bound) {edge : Edge}
    (hedge : Edge.ofKey bound (path ++ stem).length = edge) {k : Leaf V}
    (hload : n.load edge = some (.leaf k)) :
    n.Splits dir bound
      (if dir.isPast bound k.key then dir.stepBack edge.position else edge.position) := by
  cases hpast : dir.isPast bound k.key with
  | true => exact hn.splits_stepBack hbound hedge hload hpast
  | false =>
    refine hn.splits hbound hedge ?_
    intro c l hload' hc
    rw [hload] at hload'
    cases hload'
    rw [Node.has_leaf_iff.1 hc]
    exact hpast

/-- No leaf below the node comes after the bound. -/
def Spent (n : Inner V) (dir : Direction) (bound : Key) : Prop :=
  ∀ l, (Node.inner n).Has l → dir.isPast bound l.key = false

/-- When the bound leaves the stem of a node, all leaves below it are still to come, -/
theorem Holds.splits_of_side (hn : n.Holds path stem) (hpath : path <+: bound) {side : Side}
    (hside : Side.ofStem stem (bound.drop path.length) = side) (hne : side ≠ .within)
    (hpast : side.isPast dir = true) : n.Splits dir bound dir.start := by
  intro l hl
  rw [Side.isPast_iff hpath hside hne (hn.prefix_of_has hl), hpast]
  exact iff_of_true rfl (ahead_start_iff.2 hl)

/-- or none is. -/
theorem Holds.spent_of_side (hn : n.Holds path stem) (hpath : path <+: bound) {side : Side}
    (hside : Side.ofStem stem (bound.drop path.length) = side) (hne : side ≠ .within)
    (hpast : side.isPast dir = false) : n.Spent dir bound := by
  intro l hl
  rw [Side.isPast_iff hpath hside hne (hn.prefix_of_has hl), hpast]

/-- On the way backward nothing comes after the terminal. -/
theorem Splits.spent_of_terminal (h : n.Splits .backward bound Edge.terminal.position) :
    n.Spent .backward bound := by
  intro l hl
  by_contra hpast
  obtain ⟨e, c, -, hpasses, -⟩ := (h l hl).1 (by simpa using hpast)
  have hpos := e.position_bounds
  have hlt : e.position < 0 := hpasses
  omega

/-- A descent to a bound ends above a node or at it, or it goes on below. If the node is on the way of
    the bound, nothing is left below it in the first case, its leaves are split in the second, and the
    node below is on the way as well in the third. -/
theorem Valid.seek_cases (dir : Direction) (bound : Key) {n : Inner V} {isRoot : Bool} {path : Key}
    (hn : n.Valid isRoot path) (seen : Snapshot) (stack : List Checkpoint) :
    (n.seek dir bound path.length seen stack = .ok stack ∧
        (path <+: bound → n.Spent dir bound)) ∨
      (∃ pos, n.seek dir bound path.length seen stack =
        .ok (⟨n.id, bound.take path.length, seen, pos⟩ :: stack) ∧
        (path <+: bound → n.Splits dir bound pos)) ∨
      ∃ stem b m, n.fullStem path.length = .ok stem ∧ n.load (.byte b) = some (.inner m) ∧
        m.Valid false (path ++ stem ++ [b]) ∧ path.length < bound.length ∧
        (path <+: bound → path ++ stem ++ [b] <+: bound) ∧
        n.seek dir bound path.length seen stack =
          m.seek dir bound (path ++ stem ++ [b]).length ⟨m.lock.word⟩
            (⟨n.id, bound.take path.length, seen, (Edge.byte b).position⟩ :: stack) := by
  obtain ⟨stem, hholds, hstem⟩ := hn.exists_stem
  rw [Branch.seek, hstem]
  dsimp only
  split
  · rename_i hside
    split
    · rename_i hpast
      exact Or.inr (Or.inl ⟨_, rfl, fun hpath => hholds.splits_of_side hpath hside (by decide) hpast⟩)
    · rename_i hpast
      exact Or.inl ⟨rfl, fun hpath =>
        hholds.spent_of_side hpath hside (by decide) (eq_false_of_ne_true hpast)⟩
  · rename_i hside
    split
    · rename_i hpast
      exact Or.inr (Or.inl ⟨_, rfl, fun hpath => hholds.splits_of_side hpath hside (by decide) hpast⟩)
    · rename_i hpast
      exact Or.inl ⟨rfl, fun hpath =>
        hholds.spent_of_side hpath hside (by decide) (eq_false_of_ne_true hpast)⟩
  · rename_i hside
    have hbound : path <+: bound → path ++ stem <+: bound := fun hpath =>
      Side.append_prefix_of_within hpath hside
    split
    · rename_i hend
      rw [← List.length_append] at hend
      split
      · exact Or.inr (Or.inl ⟨_, rfl, fun hpath => hholds.splits_terminal (hbound hpath) hend⟩)
      · exact Or.inl ⟨rfl, fun hpath => (hholds.splits_terminal (hbound hpath) hend).spent_of_terminal⟩
    · rename_i b hbyte
      have hlt := (List.getElem?_eq_some_iff.1 hbyte).1
      rw [← List.length_append] at hbyte
      have hedge := Edge.ofKey_of_getElem? hbyte
      split
      · rename_i hfree
        refine Or.inr (Or.inl ⟨_, rfl, fun hpath => hholds.splits (hbound hpath) hedge ?_⟩)
        intro c l hload _
        rw [load_byte, hfree] at hload
        cases hload
      · rename_i k hload
        exact Or.inr (Or.inl ⟨_, rfl, fun hpath => hholds.splits_leaf (hbound hpath) hedge hload⟩)
      · rename_i m hload
        have hm := hholds.valid_of_load_inner (b := b) hload
        obtain ⟨below, hmholds, hmshape⟩ := hm
        refine Or.inr (Or.inr ⟨stem, b, m, rfl, hload, ⟨below, hmholds, hmshape⟩, by omega, ?_, ?_⟩)
        · intro hpath
          exact Edge.prefix_of_ofKey_eq_byte (hbound hpath) hedge
        · rw [hmholds.liveSnapshot, length_path_append_byte]

/-- The checkpoints that a descent to the bound leaves from a node on, deepest first. -/
inductive Sought (dir : Direction) (bound : Key) : Inner V → Key → List Checkpoint → Prop
  | spent {n : Inner V} {path : Key} : n.Spent dir bound → Sought dir bound n path []
  | split {n : Inner V} {path : Key} {pos : Int} : n.Splits dir bound pos →
      Sought dir bound n path [⟨n.id, path, ⟨n.lock.word⟩, pos⟩]
  | down {n m : Inner V} {path stem : Key} {b : UInt8} {fresh : List Checkpoint} :
      n.fullStem path.length = .ok stem → n.load (.byte b) = some (.inner m) →
      path ++ stem ++ [b] <+: bound → Sought dir bound m (path ++ stem ++ [b]) fresh →
      Sought dir bound n path (fresh ++ [⟨n.id, path, ⟨n.lock.word⟩, (Edge.byte b).position⟩])

/-- Seeking from a node on the way of the bound succeeds, and adds the checkpoints of the descent. -/
theorem Valid.exists_sought (dir : Direction) {n : Inner V} {isRoot : Bool} {path : Key}
    (hn : n.Valid isRoot path) (hpath : path <+: bound) (acc : List Checkpoint) :
    ∃ fresh, n.seek dir bound path.length ⟨n.lock.word⟩ acc = .ok (fresh ++ acc) ∧
      Sought dir bound n path fresh := by
  have htake : bound.take path.length = path := (List.prefix_iff_eq_take.1 hpath).symm
  obtain ⟨hseek, hspent⟩ | ⟨pos, hseek, hsplits⟩ |
      ⟨stem, b, m, hstem, hload, hm, hlt, hbelow, hseek⟩ :=
    hn.seek_cases dir bound ⟨n.lock.word⟩ acc
  · exact ⟨[], hseek, .spent (hspent hpath)⟩
  · rw [htake] at hseek
    exact ⟨_, hseek, .split (hsplits hpath)⟩
  · rw [htake] at hseek
    obtain ⟨fresh, hfresh, hsought⟩ := Valid.exists_sought dir hm (hbelow hpath)
      (⟨n.id, path, ⟨n.lock.word⟩, (Edge.byte b).position⟩ :: acc)
    refine ⟨_, ?_, .down hstem hload (hbelow hpath) hsought⟩
    rw [hseek, hfresh, List.append_assoc]
    rfl
termination_by bound.length - path.length
decreasing_by
  simp only [List.length_append, List.length_singleton]
  omega

namespace Sought

variable {fresh : List Checkpoint}

theorem stands (h : Sought dir bound n path fresh) (hreach : t.root.Reaches [] n path) :
    ∀ cp ∈ fresh, ∃ m, cp.At t m := by
  induction h with
  | spent _ => simp
  | @split n path pos _ =>
    intro cp hcp
    rw [List.mem_singleton.1 hcp]
    exact ⟨n, hreach, rfl, rfl⟩
  | @down n m path stem b fresh hstem hload _ _ ih =>
    intro cp hcp
    rcases List.mem_append.1 hcp with hcp | hcp
    · exact ih (hreach.trans (.child hstem hload .here)) cp hcp
    · rw [List.mem_singleton.1 hcp]
      exact ⟨n, hreach, rfl, rfl⟩

theorem prepared (h : Sought dir bound n path fresh) (hvalid : t.Valid) (hnum : t.Numbered)
    (hreach : t.root.Reaches [] n path) (hpath : path <+: bound) {rest : List Checkpoint}
    (htrail : Trail t (.node path) rest) : Prepared t dir bound fresh rest := by
  induction h generalizing rest with
  | spent hspent =>
    refine .exhausted ?_ hpath htrail
    intro l hl hpre
    exact hspent l (hreach.has_of_prefix hvalid hl hpre)
  | split hsplits => exact .ahead ⟨hreach, rfl, rfl⟩ hsplits hpath htrail
  | @down n m path stem b fresh hstem hload hbelow _ ih =>
    have htrail' : Trail t (.node (path ++ stem ++ [b]))
        (⟨n.id, path, ⟨n.lock.word⟩, (Edge.byte b).position⟩ :: rest) :=
      .step (hnum.lt_nextId _ hreach.owns)
        ((List.prefix_append path stem).trans (List.prefix_append _ [b]))
        (Or.inr ⟨n, ⟨hreach, rfl, rfl⟩, stem, b, rfl, hstem, rfl⟩) htrail
    exact (ih (hreach.trans (.child hstem hload .here)) hbelow htrail').snoc

end Sought

/-- Seeking a bound from a node succeeds, and the checkpoints that it adds stand and are ready to go
    on past the bound. -/
theorem Valid.seek (dir : Direction) (hvalid : t.Valid) (hnum : t.Numbered) {n : Inner V}
    {isRoot : Bool} {path : Key} (hn : n.Valid isRoot path) (hreach : t.root.Reaches [] n path)
    (acc rest : List Checkpoint)
    (htrail : Trail t (.node path) (acc ++ rest)) (hpath : path <+: bound) :
    ∃ fresh, n.seek dir bound path.length ⟨n.lock.word⟩ acc = .ok (fresh ++ acc) ∧
      (∀ cp ∈ fresh, ∃ m, cp.At t m) ∧ Prepared t dir bound fresh (acc ++ rest) := by
  obtain ⟨fresh, hfresh, hsought⟩ := hn.exists_sought dir hpath acc
  exact ⟨fresh, hfresh, hsought.stands hreach, hsought.prepared hvalid hnum hreach hpath htrail⟩

end Branch

end

end RadixStore
