import Mathlib
import RadixStore.Proofs.Cursor.Step

/-!
# Asking a cursor for the next key

A cursor that is not finished has not set out yet, or its checkpoints lead to the key it yielded last.
Both stay true whatever happens to the tree. The next key is then exactly the first key of the tree,
as it is at that moment, that comes after the last key or the bound at which the cursor sets out, if
it lies in the range.
-/

namespace RadixStore

variable {V : Type}

/-- The key comes strictly after the bound; without a bound every key does. -/
def Direction.Follows (dir : Direction) : Option Key → Key → Prop
  | none, _ => True
  | some bound, key => dir.isPast bound key = true

theorem Direction.Follows.trans {dir : Direction} {bound : Option Key} {a b : Key}
    (ha : dir.Follows bound a) (hab : dir.isPast a b = true) : dir.Follows bound b := by
  cases bound with
  | none => trivial
  | some bound => exact Direction.isPast_trans ha hab

namespace Cursor

variable {t u : Tree V} {c : Cursor}

/-- What a cursor has in hand while it is kept open over the tree. -/
inductive Sound (t : Tree V) (c : Cursor) : Prop
  | finished : c.done = true → Sound t c
  | unstarted : c.done = false → c.started = false → c.last = none → Sound t c
  | underWay {key : Key} : c.done = false → c.started = true → c.last = some key →
      Trail t (.leaf key) c.stack → Sound t c

theorem Sound.evolves (h : c.Sound t) (hn : t.Numbered) (he : t.Evolves u) (ha : t.Ascends u) :
    c.Sound u := by
  cases h with
  | finished hdone => exact .finished hdone
  | unstarted hdone hstarted hlast => exact .unstarted hdone hstarted hlast
  | underWay hdone hstarted hlast htrail =>
    exact .underWay hdone hstarted hlast (htrail.evolves hn he ha)

theorem sound_between (lower upper : Option Key) : (between lower upper).Sound t :=
  .unstarted rfl rfl rfl

theorem sound_reverse (c : Cursor) : c.reverse.Sound t :=
  .unstarted rfl rfl rfl

/-- What the cursor is to answer, given what the tree stores: the first key that follows the bound,
    with its value, if it is not beyond the range. -/
def Exact (t : Tree V) (c : Cursor) : Option (Leaf V) → Prop
  | none => ∀ key, (t.get? key).isSome → c.dir.Follows c.resumeBound key → c.isBeyond key = true
  | some l => t.get? l.key = some l.value ∧ c.dir.Follows c.resumeBound l.key ∧
      c.isBeyond l.key = false ∧
      ∀ key, (t.get? key).isSome → c.dir.Follows c.resumeBound key →
        key = l.key ∨ c.dir.isPast l.key key = true

/-! ### What a step does to a cursor -/

theorem next_of_done (h : c.done = true) (t : Tree V) : c.next t = ⟨none, c, 0⟩ := by
  unfold Cursor.next
  rw [if_pos h]

theorem next_eq (hdone : c.done = false) {stack : List Checkpoint} (hready : c.ready t = .ok stack) :
    ((c.next t).item, (c.next t).cursor) =
      match (t.advance c.dir c.resumeBound stack).1 with
      | none => (none, c.finish)
      | some f =>
        if c.isBeyond f.leaf.key then (none, c.finish)
        else (some f.leaf,
          { c with stack := f.stack, last := some f.leaf.key, started := true }) := by
  unfold Cursor.next
  rw [hdone, hready]
  dsimp only
  rw [if_neg Bool.false_ne_true]
  cases hadv : t.advance c.dir c.resumeBound stack with
  | mk found recoveries =>
    cases found with
    | none => rfl
    | some f =>
      dsimp only
      by_cases hbeyond : c.isBeyond f.leaf.key = true
      · rw [if_pos hbeyond, if_pos hbeyond]
      · rw [if_neg hbeyond, if_neg hbeyond]

/-- Beyond a key that is beyond the range there is nothing in the range. -/
theorem isBeyond_of_isPast {a b : Key} (ha : c.isBeyond a = true) (hab : c.dir.isPast a b = true) :
    c.isBeyond b = true := by
  unfold isBeyond at ha ⊢
  cases hstop : c.stop with
  | none =>
    rw [hstop] at ha
    cases ha
  | some bound =>
    rw [hstop] at ha
    exact Direction.isPast_trans ha hab

/-! ### Exactness -/

/-- What the step from `stack` finds is the first leaf that follows the bound. -/
def FindsNext (t : Tree V) (c : Cursor) : Option (Found V) → Prop
  | none => ∀ l, (Node.inner t.root).Has l → ¬ c.dir.Follows c.resumeBound l.key
  | some f => IsNearest c.dir (fun l => (Node.inner t.root).Has l ∧
      c.dir.Follows c.resumeBound l.key) f.leaf ∧ Trail t (.leaf f.leaf.key) f.stack

theorem findsNext_of_correct {bound : Key} (hbound : c.resumeBound = some bound)
    {o : Option (Found V)} (h : Correct t c.dir bound o) : c.FindsNext t o := by
  cases o with
  | none =>
    intro l hl hfollows
    rw [hbound] at hfollows
    have hfollows : c.dir.isPast bound l.key = true := hfollows
    rw [h l hl] at hfollows
    cases hfollows
  | some f =>
    obtain ⟨hnear, htrail⟩ := h
    refine ⟨?_, htrail⟩
    rw [hbound]
    exact hnear

/-- From the checkpoints that it has in hand, or those of its first seek, a cursor finds the first
    leaf that follows the bound. -/
theorem Sound.exists_ready (ht : t.Valid) (hnum : t.Numbered) (h : c.Sound t)
    (hdone : c.done = false) :
    ∃ stack, c.ready t = .ok stack ∧ c.FindsNext t (t.advance c.dir c.resumeBound stack).1 := by
  cases h with
  | finished hfinished =>
    rw [hdone] at hfinished
    cases hfinished
  | @underWay key _ hstarted hlast htrail =>
    have hbound : c.resumeBound = some key := by
      unfold resumeBound
      rw [hlast]
      rfl
    refine ⟨c.stack, ?_, ?_⟩
    · unfold ready
      rw [if_pos hstarted]
    · rw [hbound]
      exact findsNext_of_correct hbound (htrail.advance ht hnum)
  | unstarted _ hstarted hlast =>
    obtain ⟨stem, hholds, -⟩ := ht.exists_stem
    have hready : c.ready t = t.seek c.dir c.resumeBound := by
      unfold ready
      rw [hstarted]
      rfl
    rw [hready]
    unfold Tree.seek Branch.seekFrom
    rw [hholds.liveSnapshot]
    dsimp only
    cases hbound : c.resumeBound with
    | some bound =>
      obtain ⟨fresh, hfresh, hstand, hprep⟩ := Branch.Valid.seek c.dir ht hnum ht .here [] []
        .root (List.nil_prefix (l := bound))
      rw [List.append_nil] at hfresh hprep
      exact ⟨fresh, hfresh, findsNext_of_correct hbound (hprep.advance ht hnum hstand)⟩
    | none =>
      -- one checkpoint before the first entry of the root
      have hat : Checkpoint.At t ⟨t.root.id, [], ⟨t.root.lock.word⟩, c.dir.start⟩ t.root :=
        ⟨.here, rfl, rfl⟩
      have hfound := Branch.Valid.firstLeaf? c.dir c.dir.start hnum ht .here .root
      refine ⟨_, rfl, ?_⟩
      unfold Tree.advance
      rw [hat.resolve ht]
      dsimp only
      cases hf : t.root.firstLeaf? c.dir [] ⟨t.root.lock.word⟩ c.dir.start [] with
      | none =>
        rw [hf] at hfound
        intro l hl
        exact absurd (Branch.ahead_start_iff.2 hl) (hfound l)
      | some f =>
        rw [hf] at hfound
        obtain ⟨⟨hahead, hleast⟩, htrail⟩ := hfound
        refine ⟨⟨⟨hahead.has, ?_⟩, ?_⟩, htrail⟩
        · rw [hbound]
          exact trivial
        · rintro k ⟨hk, -⟩
          exact hleast k (Branch.ahead_start_iff.2 hk)

/-- The next key of a cursor that is not finished is exact for the tree as it is, and the cursor is
    left in good order. -/
theorem Sound.next (ht : t.Valid) (hnum : t.Numbered) (h : c.Sound t) (hdone : c.done = false) :
    c.Exact t (c.next t).item ∧ (c.next t).cursor.Sound t := by
  obtain ⟨stack, hready, hfinds⟩ := h.exists_ready ht hnum hdone
  have hnext := next_eq hdone hready
  have hstored : ∀ {key : Key}, (t.get? key).isSome →
      ∃ l, (Node.inner t.root).Has l ∧ l.key = key := by
    intro key hsome
    obtain ⟨v, hv⟩ := Option.isSome_iff_exists.1 hsome
    exact ⟨⟨key, v⟩, ht.get?_eq_some_iff.1 hv, rfl⟩
  cases hfound : (t.advance c.dir c.resumeBound stack).1 with
  | none =>
    rw [hfound] at hfinds hnext
    obtain ⟨hitem, hcursor⟩ := Prod.mk.inj hnext
    rw [hitem, hcursor]
    refine ⟨?_, .finished rfl⟩
    intro key hkey hfollows
    obtain ⟨l, hl, rfl⟩ := hstored hkey
    exact absurd hfollows (hfinds l hl)
  | some f =>
    rw [hfound] at hfinds hnext
    dsimp only at hnext
    obtain ⟨⟨⟨hhas, hfollows⟩, hleast⟩, htrail⟩ := hfinds
    by_cases hbeyond : c.isBeyond f.leaf.key = true
    · rw [if_pos hbeyond] at hnext
      obtain ⟨hitem, hcursor⟩ := Prod.mk.inj hnext
      rw [hitem, hcursor]
      refine ⟨?_, .finished rfl⟩
      intro key hkey hkfollows
      obtain ⟨l, hl, rfl⟩ := hstored hkey
      rcases hleast l ⟨hl, hkfollows⟩ with heq | hpast
      · rw [heq]
        exact hbeyond
      · exact isBeyond_of_isPast hbeyond hpast
    · rw [if_neg hbeyond] at hnext
      obtain ⟨hitem, hcursor⟩ := Prod.mk.inj hnext
      rw [hitem, hcursor]
      refine ⟨⟨ht.get?_eq_some_iff.2 hhas, hfollows, by simpa using hbeyond, ?_⟩,
        .underWay hdone rfl rfl htrail⟩
      intro key hkey hkfollows
      obtain ⟨l, hl, rfl⟩ := hstored hkey
      exact hleast l ⟨hl, hkfollows⟩

end Cursor

end RadixStore
