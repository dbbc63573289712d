import Mathlib
import RadixStore.Proofs.Cursor.Seek

/-!
# One step of a cursor

A step finds the first leaf past the bound from any stack of checkpoints that lead to where the bound
is, no matter which of them have expired. Going up, whatever lies below a checkpoint that was dropped
is used up; at the next one that stands, the entries past its position are then exactly the leaves
past the bound below its node, and they come before all others past the bound. A checkpoint that has
expired says nothing about what is below it, which is why the one above it is sought anew.
-/

namespace RadixStore

variable {V : Type} {t : Tree V} {dir : Direction} {bound : Key}

/-! ### Checkpoints that stand -/

theorem Checkpoint.At.not_expired {cp : Checkpoint} {n : Inner V} (h : cp.At t n) :
    ¬ cp.Expired t := by
  intro hexp
  have hlt := hexp n cp.path h.reached h.id_eq
  rw [h.word_eq] at hlt
  exact lt_irrefl _ hlt

theorem Checkpoint.At.seen_eq {cp : Checkpoint} {n : Inner V} (h : cp.At t n) :
    cp.seen = ⟨n.lock.word⟩ := by
  rw [h.word_eq]

/-- When nothing is left below the target of a checkpoint, its position splits the leaves. -/
theorem Checkpoint.At.splits {cp : Checkpoint} {n : Inner V} (ht : t.Valid) (h : cp.At t n)
    {p : Key} (hpoints : n.Points cp.path cp.pos (.node p)) (hp : p <+: bound)
    (hex : t.Exhausted dir bound p) : n.Splits dir bound cp.pos := by
  obtain ⟨stem, b, hpos, hstem, rfl⟩ := hpoints
  obtain ⟨r, hn⟩ := h.reached.valid ht
  have hholds := hn.holds_of_fullStem hstem
  rw [← hpos]
  refine hholds.splits ((List.prefix_append _ [b]).trans hp) (Edge.ofKey_eq_byte_of_prefix hp) ?_
  intro c l hload hc
  have hpre : cp.path ++ stem ++ [b] <+: l.key := (hholds.under (.byte b) c hload).prefix_of_has hc
  exact hex l (h.reached.has (Node.Has.inner hload hc)) hpre

theorem Checkpoint.At.splits_leaf {cp : Checkpoint} {n : Inner V} (ht : t.Valid) (h : cp.At t n)
    (hpoints : n.Points cp.path cp.pos (.leaf bound)) : n.Splits dir bound cp.pos := by
  obtain ⟨edge, k, hpos, hload, rfl⟩ := hpoints
  obtain ⟨r, hn⟩ := h.reached.valid ht
  obtain ⟨stem, hholds, -⟩ := hn.exists_stem
  obtain ⟨hpre, hedge⟩ := (hholds.under edge _ hload).edge_of_has (Node.Has.leaf k)
  rw [← hpos]
  refine hholds.splits hpre hedge ?_
  intro c l hload' hc
  rw [hload] at hload'
  cases hload'
  rw [Node.has_leaf_iff.1 hc]
  exact Direction.isPast_irrefl dir _

/-! ### What a step comes to -/

/-- The first leaf past the bound, with checkpoints that lead to it; none if there is none. -/
def Correct (t : Tree V) (dir : Direction) (bound : Key) : Option (Found V) → Prop
  | none => ∀ l, (Node.inner t.root).Has l → dir.isPast bound l.key = false
  | some f =>
    IsNearest dir (fun l => (Node.inner t.root).Has l ∧ dir.isPast bound l.key = true) f.leaf ∧
      Trail t (.leaf f.leaf.key) f.stack

/-- The first leaf past the bound below a node on the way of the bound is the first of all. -/
theorem IsNearest.of_region {n : Inner V} {path : Key} {l : Leaf V} (ht : t.Valid)
    (hreach : t.root.Reaches [] n path) (hpath : path <+: bound)
    (h : IsNearest dir (fun l => (Node.inner n).Has l ∧ dir.isPast bound l.key = true) l) :
    IsNearest dir (fun l => (Node.inner t.root).Has l ∧ dir.isPast bound l.key = true) l := by
  obtain ⟨⟨hl, hpast⟩, hleast⟩ := h
  refine ⟨⟨hreach.has hl, hpast⟩, ?_⟩
  rintro k ⟨hk, hkpast⟩
  by_cases hpre : path <+: k.key
  · exact hleast k ⟨hreach.has_of_prefix ht hk hpre, hkpast⟩
  · -- a leaf elsewhere lies on the same side of all keys below the node
    obtain ⟨r, hn⟩ := hreach.valid ht
    obtain ⟨stem, hholds, -⟩ := hn.exists_stem
    have hlpre := (List.prefix_append path stem).trans (hholds.prefix_of_has hl)
    refine Or.inr ?_
    rw [Direction.isPast_congr_left hlpre hpath hpre]
    exact hkpast

theorem Checkpoint.At.firstLeaf? {cp : Checkpoint} {n : Inner V} {stack : List Checkpoint}
    (ht : t.Valid) (hnum : t.Numbered) (h : cp.At t n) (hsplits : n.Splits dir bound cp.pos)
    (hpath : cp.path <+: bound) (htrail : Trail t (.node cp.path) stack) :
    match n.firstLeaf? dir cp.path cp.seen cp.pos stack with
    | some f => Correct t dir bound (some f)
    | none => t.Exhausted dir bound cp.path := by
  obtain ⟨r, hn⟩ := h.reached.valid ht
  rw [h.seen_eq]
  have hfound := Branch.Valid.firstLeaf? dir cp.pos hnum hn h.reached htrail
  cases hf : n.firstLeaf? dir cp.path ⟨n.lock.word⟩ cp.pos stack with
  | none =>
    rw [hf] at hfound
    intro l hl hpre
    have hhas := h.reached.has_of_prefix ht hl hpre
    rw [← Bool.not_eq_true, hsplits l hhas]
    exact hfound l
  | some f =>
    rw [hf] at hfound
    obtain ⟨⟨hahead, hleast⟩, hstack⟩ := hfound
    refine ⟨IsNearest.of_region ht h.reached hpath ⟨⟨hahead.has, ?_⟩, ?_⟩, hstack⟩
    · exact (hsplits f.leaf hahead.has).2 hahead
    · rintro k ⟨hk, hkpast⟩
      exact hleast k ((hsplits k hk).1 hkpast)

/-! ### Going up the stack -/

theorem Prepared.head {cp : Checkpoint} {fresh rest : List Checkpoint} (ht : t.Valid)
    (hstand : ∃ n, cp.At t n) (h : Prepared t dir bound (cp :: fresh) rest) :
    ∃ n, cp.At t n ∧ n.Splits dir bound cp.pos ∧ cp.path <+: bound ∧
      Trail t (.node cp.path) (fresh ++ rest) := by
  cases h with
  | ahead hat hsplits hpath htrail => exact ⟨_, hat, hsplits, hpath, htrail⟩
  | @exhausted path _ _ hex hpath htrail =>
    cases htrail with
    | step hid hcp hholds htrail =>
      obtain ⟨m, hm⟩ := hstand
      rcases hholds with hexp | ⟨n, hat, hpoints⟩
      · exact absurd hexp hm.not_expired
      · have hsplits := hat.splits ht hpoints hpath hex
        have hcp : cp.path <+: path := hcp
        exact ⟨n, hat, hsplits, hcp.trans hpath, htrail⟩

theorem Prepared.firstAfter? {fresh rest : List Checkpoint} (ht : t.Valid) (hnum : t.Numbered)
    (h : Prepared t dir bound fresh rest) (hstand : ∀ cp ∈ fresh, ∃ n, cp.At t n)
    {o : Option (Found V)}
    (hrest : ∀ p, Trail t (.node p) rest → p <+: bound → t.Exhausted dir bound p →
      Correct t dir bound o) :
    match t.firstAfter? dir rest fresh with
    | some f => Correct t dir bound (some f)
    | none => Correct t dir bound o := by
  induction fresh with
  | nil =>
    cases h with
    | exhausted hex hpath htrail => exact hrest _ htrail hpath hex
  | cons cp fresh ih =>
    obtain ⟨n, hat, hsplits, hpath, htrail⟩ := h.head ht (hstand cp List.mem_cons_self)
    have hfound := hat.firstLeaf? ht hnum hsplits hpath htrail
    unfold Tree.firstAfter?
    rw [hat.resolve ht]
    dsimp only
    cases hf : n.firstLeaf? dir cp.path cp.seen cp.pos (fresh ++ rest) with
    | some f =>
      rw [hf] at hfound
      exact hfound
    | none =>
      rw [hf] at hfound
      exact ih (.exhausted hfound hpath htrail) fun k hk => hstand k (List.mem_cons_of_mem cp hk)

/-- From a checkpoint that stands: the first leaf past the bound is below it, or what the rest of the
    stack comes to. -/
theorem Checkpoint.At.correct_advance {cp : Checkpoint} {n : Inner V} {stack : List Checkpoint}
    (ht : t.Valid) (hnum : t.Numbered) (h : cp.At t n) (hsplits : n.Splits dir bound cp.pos)
    (hpath : cp.path <+: bound) (htrail : Trail t (.node cp.path) stack)
    (hrest : t.Exhausted dir bound cp.path →
      Correct t dir bound (t.advance dir (some bound) stack).1) :
    Correct t dir bound (t.advance dir (some bound) (cp :: stack)).1 := by
  have hfound := h.firstLeaf? ht hnum hsplits hpath htrail
  unfold Tree.advance
  rw [h.resolve ht]
  dsimp only
  cases hf : n.firstLeaf? dir cp.path cp.seen cp.pos stack with
  | some f =>
    rw [hf] at hfound
    exact hfound
  | none =>
    rw [hf] at hfound
    exact hrest hfound

/-- From a checkpoint that has expired a cursor recovers. -/
theorem Checkpoint.Expired.advance_fst {cp : Checkpoint} (ht : t.Valid) (h : cp.Expired t)
    (stack : List Checkpoint) :
    (t.advance dir (some bound) (cp :: stack)).1 = (t.recover dir (some bound) stack).1 := by
  obtain ⟨e, he⟩ := h.resolve ht
  rw [Tree.advance, he]

/-- Without a checkpoint left the cursor seeks from the root. -/
theorem Tree.Valid.correct_recover_nil (ht : t.Valid) (hnum : t.Numbered) :
    Correct t dir bound (t.recover dir (some bound) []).1 := by
  obtain ⟨stem, hholds, -⟩ := ht.exists_stem
  obtain ⟨fresh, hfresh, hstand, hprep⟩ := Branch.Valid.seek dir ht hnum ht .here
    [] [] .root (List.nil_prefix (l := bound))
  rw [List.append_nil] at hfresh
  have hseek : t.seek dir (some bound) = .ok fresh := by
    unfold Tree.seek Branch.seekFrom
    rw [hholds.liveSnapshot]
    exact hfresh
  have hnone : ∀ p, Trail t (.node p) [] → p <+: bound → t.Exhausted dir bound p →
      Correct t dir bound none := by
    intro p htrail _ hex
    cases htrail
    intro l hl
    exact hex l hl List.nil_prefix
  have hfirst := hprep.firstAfter? ht hnum hstand hnone
  unfold Tree.recover
  rw [hseek]
  dsimp only
  rw [List.append_nil] at hfirst
  cases hf : t.firstAfter? dir [] fresh with
  | none =>
    rw [hf] at hfirst
    exact hfirst
  | some f =>
    rw [hf] at hfirst
    exact hfirst

/-- From a checkpoint that stands the cursor seeks anew, and goes on with the rest of the stack. -/
theorem Checkpoint.At.correct_recover {cp : Checkpoint} {n : Inner V} {stack : List Checkpoint}
    (ht : t.Valid) (hnum : t.Numbered) (h : cp.At t n) (hpath : cp.path <+: bound)
    (htrail : Trail t (.node cp.path) stack)
    (hrest : ∀ p, Trail t (.node p) stack → p <+: bound → t.Exhausted dir bound p →
      Correct t dir bound (t.advance dir (some bound) stack).1) :
    Correct t dir bound (t.recover dir (some bound) (cp :: stack)).1 := by
  obtain ⟨r, hn⟩ := h.reached.valid ht
  obtain ⟨fresh, hfresh, hstand, hprep⟩ :=
    Branch.Valid.seek dir ht hnum hn h.reached [] stack htrail hpath
  have hseek : n.seekFrom dir (some bound) cp.path cp.seen [] = .ok fresh := by
    rw [List.append_nil] at hfresh
    rw [h.seen_eq]
    exact hfresh
  have hfirst := hprep.firstAfter? ht hnum hstand hrest
  unfold Tree.recover
  rw [h.resolve ht]
  dsimp only
  rw [hseek]
  dsimp only
  rw [List.nil_append] at hfirst
  cases hf : t.firstAfter? dir stack fresh with
  | some f =>
    rw [hf] at hfirst
    exact hfirst
  | none =>
    rw [hf] at hfirst
    exact hfirst

/-- Going on from the stack, and finding the way again, both lead to the first leaf past the bound.
    The two proofs go by one induction on the stack, as the two functions call each other. -/
theorem Tree.Valid.advance_and_recover (ht : t.Valid) (hnum : t.Numbered)
    (stack : List Checkpoint) :
    (∀ p, Trail t (.node p) stack → p <+: bound → t.Exhausted dir bound p →
      Correct t dir bound (t.advance dir (some bound) stack).1) ∧
    (∀ p, Trail t (.node p) stack → p <+: bound →
      Correct t dir bound (t.recover dir (some bound) stack).1) := by
  induction stack with
  | nil =>
    refine ⟨?_, fun _ _ _ => ht.correct_recover_nil hnum⟩
    intro p htrail _ hex
    cases htrail
    unfold Tree.advance
    intro l hl
    exact hex l hl List.nil_prefix
  | cons cp stack ih =>
    refine ⟨?_, ?_⟩
    · intro p htrail hp hex
      cases htrail with
      | step hid hcp hholds htrail =>
        have hpath : cp.path <+: bound := List.IsPrefix.trans hcp hp
        rcases hholds with hexp | ⟨n, hat, hpoints⟩
        · rw [hexp.advance_fst ht]
          exact ih.2 cp.path htrail hpath
        · exact hat.correct_advance ht hnum (hat.splits ht hpoints hp hex) hpath htrail
            (ih.1 cp.path htrail hpath)
    · intro p htrail hp
      cases htrail with
      | step hid hcp hholds htrail =>
        have hpath : cp.path <+: bound := List.IsPrefix.trans hcp hp
        rcases hholds with hexp | ⟨n, hat, hpoints⟩
        · obtain ⟨e, he⟩ := hexp.resolve ht
          rw [Tree.recover, he]
          exact ih.2 cp.path htrail hpath
        · exact hat.correct_recover ht hnum hpath htrail ih.1

theorem Prepared.advance {fresh : List Checkpoint} (ht : t.Valid) (hnum : t.Numbered)
    (h : Prepared t dir bound fresh []) (hstand : ∀ cp ∈ fresh, ∃ n, cp.At t n) :
    Correct t dir bound (t.advance dir (some bound) fresh).1 := by
  cases fresh with
  | nil =>
    cases h with
    | exhausted hex hpath htrail =>
      exact (ht.advance_and_recover hnum []).1 _ htrail hpath hex
  | cons cp fresh =>
    obtain ⟨n, hat, hsplits, hpath, htrail⟩ := h.head ht (hstand cp List.mem_cons_self)
    rw [List.append_nil] at htrail
    exact hat.correct_advance ht hnum hsplits hpath htrail
      ((ht.advance_and_recover hnum fresh).1 cp.path htrail hpath)

/-- A step from the checkpoints that lead to the leaf with the bound for its key, wherever the tree
    has left them. -/
theorem Trail.advance {stack : List Checkpoint} (ht : t.Valid) (hnum : t.Numbered)
    (h : Trail t (.leaf bound) stack) :
    Correct t dir bound (t.advance dir (some bound) stack).1 := by
  cases h with
  | @step _ cp stack hid hcp hholds htrail =>
    rcases hholds with hexp | ⟨n, hat, hpoints⟩
    · rw [hexp.advance_fst ht]
      exact (ht.advance_and_recover hnum stack).2 cp.path htrail hcp
    · exact hat.correct_advance ht hnum (hat.splits_leaf ht hpoints) hcp htrail
        ((ht.advance_and_recover hnum stack).1 cp.path htrail hcp)

end RadixStore
