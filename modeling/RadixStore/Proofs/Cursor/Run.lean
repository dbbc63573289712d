import Mathlib
import RadixStore.Proofs.Cursor.Next
import RadixStore.Proofs.Tree.WriteSections
import RadixStore.Script.Tree

/-!
# Cursors over a run

However a script interleaves changes of the tree with steps of its cursors, every cursor is exact at
every step, as long as no node is write-locked 2 ^ 62 times. What a cursor yields between two turns is
therefore strictly monotone, and a key that is stored all the time and lies in the range is yielded
exactly once on the way to the end.
-/

namespace RadixStore

variable {V : Type}

/-! ### Walks -/

namespace Cursor

variable {P : Tree V → Prop} {c d e : Cursor} {ls ms : List (Leaf V)}

/-- The cursor has come from `c` to `d` by exact steps over trees with `P`, yielding `ls`. -/
inductive Walk (P : Tree V → Prop) : Cursor → List (Leaf V) → Cursor → Prop
  | rest {c : Cursor} : Walk P c [] c
  | next {c d : Cursor} {ls : List (Leaf V)} {t : Tree V} : P t → c.done = false →
      c.Exact t (c.next t).item → Walk P (c.next t).cursor ls d →
      Walk P c ((c.next t).item.toList ++ ls) d

theorem Walk.trans (h : Walk P c ls d) (h' : Walk P d ms e) : Walk P c (ls ++ ms) e := by
  induction h with
  | rest => exact h'
  | next ht hdone hexact _ ih =>
    rw [List.append_assoc]
    exact .next ht hdone hexact (ih h')

/-- A step keeps the range and the direction; it moves on to the key that it yields, and finishes the
    cursor when it yields none. -/
theorem next_cursor (c : Cursor) (t : Tree V) :
    (c.next t).cursor.dir = c.dir ∧ (c.next t).cursor.lower = c.lower ∧
      (c.next t).cursor.upper = c.upper ∧
      match (c.next t).item with
      | some l => (c.next t).cursor.last = some l.key ∧ (c.next t).cursor.done = false
      | none => (c.next t).cursor.done = true := by
  unfold Cursor.next
  split
  · rename_i hdone
    exact ⟨rfl, rfl, rfl, hdone⟩
  · rename_i hdone
    split
    · exact ⟨rfl, rfl, rfl, rfl⟩
    · split
      · exact ⟨rfl, rfl, rfl, rfl⟩
      · split
        · exact ⟨rfl, rfl, rfl, rfl⟩
        · exact ⟨rfl, rfl, rfl, rfl, by simpa using hdone⟩

theorem isBeyond_congr (hdir : d.dir = c.dir) (hlower : d.lower = c.lower)
    (hupper : d.upper = c.upper) (key : Key) : d.isBeyond key = c.isBeyond key := by
  unfold isBeyond stop
  rw [hdir, hlower, hupper]

theorem resumeBound_of_last {key : Key} (h : c.last = some key) : c.resumeBound = some key := by
  unfold resumeBound
  rw [h]
  rfl

/-- All that a walk yields lies in the range, after the bound at which it began and strictly in
    order. -/
theorem Walk.ordered (h : Walk P c ls d) :
    (∀ l ∈ ls, c.dir.Follows c.resumeBound l.key ∧ c.isBeyond l.key = false) ∧
      ls.Pairwise fun k l => c.dir.isPast k.key l.key = true := by
  induction h with
  | rest => exact ⟨fun l hl => (by cases hl), List.Pairwise.nil⟩
  | @next c d ls t _ hdone hexact _ ih =>
    obtain ⟨hdir, hlower, hupper, hitem⟩ := c.next_cursor t
    obtain ⟨hrange, hpair⟩ := ih
    rw [hdir] at hrange hpair
    cases hi : (c.next t).item with
    | none =>
      -- the cursor is finished, so that the rest of the walk yields nothing
      rw [hi] at hexact hitem
      have hnil : ls = [] := by
        rename_i hwalk
        cases hwalk with
        | rest => rfl
        | next _ hdone' _ _ =>
          rw [hdone'] at hitem
          cases hitem
      rw [hnil]
      exact ⟨fun l hl => (by cases hl), List.Pairwise.nil⟩
    | some k =>
      rw [hi] at hexact hitem
      obtain ⟨-, hfollows, hbeyond, -⟩ := hexact
      rw [resumeBound_of_last hitem.1] at hrange
      show (∀ l ∈ k :: ls, _) ∧ (k :: ls).Pairwise _
      refine ⟨?_, List.pairwise_cons.2 ⟨fun l hl => (hrange l hl).1, hpair⟩⟩
      intro l hl
      rcases List.mem_cons.1 hl with rfl | hl
      · exact ⟨hfollows, hbeyond⟩
      · obtain ⟨hpast, hin⟩ := hrange l hl
        rw [isBeyond_congr hdir hlower hupper] at hin
        exact ⟨hfollows.trans hpast, hin⟩

/-- A key in the range that is stored all the time is yielded exactly once, if the walk goes past it
    or to the end. -/
theorem Walk.count_eq_one {key : Key} (h : Walk (fun t => (t.get? key).isSome) c ls d)
    (hdone : c.done = false) (hfollows : c.dir.Follows c.resumeBound key)
    (hbeyond : c.isBeyond key = false) (hend : d.done = true ∨ ¬ d.dir.Follows d.resumeBound key) :
    (ls.map Leaf.key).count key = 1 := by
  induction h with
  | rest =>
    rcases hend with hend | hend
    · rw [hdone] at hend
      cases hend
    · exact absurd hfollows hend
  | @next c d ls t ht _ hexact hwalk ih =>
    obtain ⟨hdir, hlower, hupper, hitem⟩ := c.next_cursor t
    cases hi : (c.next t).item with
    | none =>
      rw [hi] at hexact
      rw [hexact key ht hfollows] at hbeyond
      cases hbeyond
    | some k =>
      rw [hi] at hexact hitem
      obtain ⟨-, -, -, hleast⟩ := hexact
      show ((k :: ls).map Leaf.key).count key = 1
      rw [List.map_cons, List.count_cons]
      rcases hleast key ht hfollows with rfl | hpast
      · -- the rest of the walk is strictly past the key
        have hrest : (ls.map Leaf.key).count k.key = 0 := by
          rw [List.count_eq_zero, List.mem_map]
          rintro ⟨l, hl, hkey⟩
          obtain ⟨hpast, -⟩ := hwalk.ordered.1 l hl
          rw [resumeBound_of_last hitem.1, hkey] at hpast
          have hpast : (c.next t).cursor.dir.isPast k.key k.key = true := hpast
          rw [Direction.isPast_irrefl] at hpast
          cases hpast
        rw [hrest, if_pos (beq_self_eq_true _)]
      · have hne : k.key ≠ key := by
          rintro rfl
          rw [Direction.isPast_irrefl] at hpast
          cases hpast
        rw [if_neg (by simpa using hne)]
        refine ih hitem.2 ?_ ?_ hend
        · rw [hdir, resumeBound_of_last hitem.1]
          exact hpast
        · rw [isBeyond_congr hdir hlower hupper]
          exact hbeyond

theorem Sound.nexts {t : Tree V} (ht : t.Valid) (hnum : t.Numbered) (hP : P t) (count : Nat)
    (h : c.Sound t) :
    (c.nexts t count).2.1.Sound t ∧
      Walk P c ((c.nexts t count).1.filterMap id) (c.nexts t count).2.1 := by
  induction count generalizing c with
  | zero => exact ⟨h, .rest⟩
  | succ count ih =>
    show ((c.next t).cursor.nexts t count).2.1.Sound t ∧
      Walk P c (((c.next t).item :: ((c.next t).cursor.nexts t count).1).filterMap id)
        ((c.next t).cursor.nexts t count).2.1
    have hlist : ((c.next t).item :: ((c.next t).cursor.nexts t count).1).filterMap id =
        (c.next t).item.toList ++ ((c.next t).cursor.nexts t count).1.filterMap id := by
      cases (c.next t).item <;> rfl
    rw [hlist]
    cases hdone : c.done with
    | true =>
      obtain ⟨hsound, hwalk⟩ := ih h
      rw [next_of_done hdone]
      exact ⟨hsound, hwalk⟩
    | false =>
      obtain ⟨hexact, hnext⟩ := h.next ht hnum hdone
      obtain ⟨hsound, hwalk⟩ := ih hnext
      exact ⟨hsound, .next hP hdone hexact hwalk⟩

end Cursor

/-! ### Runs -/

namespace TreeScript

/-- How often a run write-locks the node called `i` while it is linked. -/
def writeSections (i : NodeId) : State V → List (Op V) → Nat
  | _, [] => 0
  | st, op :: ops => st.tree.wrote (st.step op).1.tree i + writeSections i (st.step op).1 ops

theorem writeSections_append (i : NodeId) (st : State V) (ops more : List (Op V)) :
    writeSections i st (ops ++ more) =
      writeSections i st ops + writeSections i (exec st ops) more := by
  induction ops generalizing st with
  | nil => exact (Nat.zero_add _).symm
  | cons op ops ih =>
    show _ + writeSections i (st.step op).1 (ops ++ more) = _ + _ + _
    rw [ih, Nat.add_assoc]
    rfl

theorem writeSections_le_length (i : NodeId) (st : State V) (ops : List (Op V)) :
    writeSections i st ops ≤ ops.length := by
  induction ops generalizing st with
  | nil => exact le_rfl
  | cons op ops ih =>
    have hone := st.tree.wrote_le_one (st.step op).1.tree i
    have hrest := ih (st.step op).1
    show st.tree.wrote (st.step op).1.tree i + writeSections i (st.step op).1 ops ≤ ops.length + 1
    omega

namespace State

variable {st : State V} {count : NodeId → Nat}

/-- What is true between any two steps. -/
structure Sound (st : State V) (count : NodeId → Nat) : Prop where
  valid : st.tree.Valid
  numbered : st.tree.Numbered
  counted : st.tree.Counted count
  cursors : ∀ name c, st.cursors.find name = some c → c.Sound st.tree

theorem sound_start : (start : State V).Sound fun _ => 0 where
  valid := Tree.valid_empty
  numbered := Tree.numbered_empty
  counted := Tree.counted_empty
  cursors name c h := by cases h

/-- What becomes of a cursor in a step: it is opened, turned round or asked for keys, or stays as it
    is. -/
theorem find_step (st : State V) (op : Op V) {name : String} {d : Cursor}
    (h : (st.step op).1.cursors.find name = some d) :
    st.cursors.find name = some d ∨ (∃ lower upper, d = .between lower upper) ∨
      (∃ c : Cursor, d = c.reverse) ∨
      ∃ (c : Cursor) (n : Nat), st.cursors.find name = some c ∧ (st.step op).1.tree = st.tree ∧
        d = (c.nexts st.tree n).2.1 := by
  have hbind : ∀ (other : String) (x : Cursor), (st.cursors.bind other x).find name = some d →
      st.cursors.find name = some d ∨ name = other ∧ x = d := by
    intro other x hfind
    by_cases hname : name = other
    · subst hname
      rw [Bindings.find_bind_self] at hfind
      exact Or.inr ⟨rfl, Option.some.inj hfind⟩
    · rw [Bindings.find_bind_of_ne _ _ hname] at hfind
      exact Or.inl hfind
  cases op with
  | openCursor other lower upper =>
    rcases hbind other _ h with h | ⟨-, hd⟩
    · exact Or.inl h
    · exact Or.inr (Or.inl ⟨lower, upper, hd.symm⟩)
  | close other =>
    by_cases hname : name = other
    · subst hname
      have h : (st.cursors.unbind name).find name = some d := h
      rw [Bindings.find_unbind_self] at h
      cases h
    · have h : (st.cursors.unbind other).find name = some d := h
      rw [Bindings.find_unbind_of_ne _ hname] at h
      exact Or.inl h
  | reverse other =>
    unfold step at h
    dsimp only at h
    cases hc : st.cursors.find other with
    | none =>
      rw [hc] at h
      exact Or.inl h
    | some c =>
      rw [hc] at h
      rcases hbind other _ h with h | ⟨-, hd⟩
      · exact Or.inl h
      · exact Or.inr (Or.inr (Or.inl ⟨c, hd.symm⟩))
  | next other count =>
    unfold step at h ⊢
    dsimp only at h ⊢
    cases hc : st.cursors.find other with
    | none =>
      rw [hc] at h
      exact Or.inl h
    | some c =>
      rw [hc] at h
      rcases hbind other _ h with h | ⟨rfl, hd⟩
      · exact Or.inl h
      · exact Or.inr (Or.inr (Or.inr ⟨c, count, hc, rfl, hd.symm⟩))
  | inspectCursor other =>
    unfold step at h
    dsimp only at h
    cases hc : st.cursors.find other <;> rw [hc] at h <;> exact Or.inl h
  | insert _ _ | getOrInsert _ _ | remove _ | get _ | scan _ _ _ _ | size | shape | counters
  | resetCounters | inspect => exact Or.inl h

/-- One step keeps everything in good order, unless a count overflows. -/
theorem Sound.step (h : st.Sound count) (op : Op V)
    (hlt : ∀ i, count i + st.tree.wrote (st.step op).1.tree i < 2 ^ 62) :
    (st.step op).1.Sound fun i => count i + st.tree.wrote (st.step op).1.tree i := by
  obtain ⟨hvalid, hnum, hevolves⟩ := step_evolves h.valid h.numbered op
  have hcounted := h.counted.evolves h.valid h.numbered hvalid hnum hevolves hlt
  have hascends := h.counted.ascends hcounted
  refine ⟨hvalid, hnum, hcounted, ?_⟩
  intro name d hd
  rcases find_step st op hd with hold | ⟨lower, upper, rfl⟩ | ⟨c, rfl⟩ | ⟨c, n, hc, htree, rfl⟩
  · exact (h.cursors name d hold).evolves h.numbered hevolves hascends
  · exact Cursor.sound_between lower upper
  · exact Cursor.sound_reverse c
  · rw [htree]
    exact ((h.cursors name c hc).nexts (P := fun _ => True) h.valid h.numbered trivial n).1

theorem Sound.exec (h : st.Sound count) (ops : List (Op V))
    (hlt : ∀ i, count i + writeSections i st ops < 2 ^ 62) :
    (exec st ops).Sound fun i => count i + writeSections i st ops := by
  induction ops generalizing st count with
  | nil => exact h
  | cons op ops ih =>
    have hsplit : ∀ i, count i + writeSections i st (op :: ops) =
        count i + st.tree.wrote (st.step op).1.tree i + writeSections i (st.step op).1 ops :=
      fun i => (Nat.add_assoc _ _ _).symm
    simp only [hsplit] at hlt ⊢
    refine ih (h.step op ?_) hlt
    intro i
    exact lt_of_le_of_lt (Nat.le_add_right _ _) (hlt i)

end State

/-! ### What a cursor yields -/

/-- Whether a step neither opens, turns nor closes the cursor called `name`. -/
def Op.keeps (name : String) : Op V → Bool
  | .openCursor other _ _ | .reverse other | .close other => other ≠ name
  | _ => true

/-- What a step yields from the cursor called `name`. -/
def Op.yields (name : String) (op : Op V) (answer : Answer V) : List (Leaf V) :=
  match op, answer with
  | .next other _, .stepped items => if other = name then items.filterMap id else []
  | _, _ => []

/-- What a run yields from the cursor called `name`. -/
def yields (name : String) : State V → List (Op V) → List (Leaf V)
  | _, [] => []
  | st, op :: ops => op.yields name (st.step op).2 ++ yields name (st.step op).1 ops

variable {st : State V} {count : NodeId → Nat} {P : Tree V → Prop} {name : String} {c : Cursor}

/-- A step that keeps a cursor takes it along a walk over the tree before the step. -/
theorem State.Sound.walk_step (h : st.Sound count) (op : Op V) (hkeep : op.keeps name = true)
    (hc : st.cursors.find name = some c) (hP : P st.tree) :
    ∃ d, (st.step op).1.cursors.find name = some d ∧
      Cursor.Walk P c (op.yields name (st.step op).2) d := by
  have hother : ∀ (other : String) (x : Cursor), other ≠ name →
      (st.cursors.bind other x).find name = some c := by
    intro other x hne
    rw [Bindings.find_bind_of_ne _ _ hne.symm]
    exact hc
  cases op with
  | openCursor other lower upper =>
    exact ⟨c, hother other _ (of_decide_eq_true hkeep), .rest⟩
  | close other =>
    have hne : other ≠ name := of_decide_eq_true hkeep
    refine ⟨c, ?_, .rest⟩
    show (st.cursors.unbind other).find name = some c
    rw [Bindings.find_unbind_of_ne _ hne.symm]
    exact hc
  | reverse other =>
    have hne : other ≠ name := of_decide_eq_true hkeep
    refine ⟨c, ?_, .rest⟩
    unfold State.step
    dsimp only
    cases st.cursors.find other with
    | none => exact hc
    | some x => exact hother other _ hne
  | next other n =>
    unfold State.step Op.yields
    dsimp only
    by_cases hname : other = name
    · subst hname
      obtain ⟨-, hwalk⟩ := (h.cursors other c hc).nexts h.valid h.numbered hP n
      rw [hc]
      refine ⟨(c.nexts st.tree n).2.1, Bindings.find_bind_self _ _ _, ?_⟩
      dsimp only
      rw [if_pos rfl]
      exact hwalk
    · refine ⟨c, ?_, ?_⟩
      · cases st.cursors.find other with
        | none => exact hc
        | some x => exact hother other _ hname
      · cases st.cursors.find other with
        | none => exact .rest
        | some x =>
          dsimp only
          rw [if_neg hname]
          exact .rest
  | inspectCursor other =>
    refine ⟨c, ?_, .rest⟩
    unfold State.step
    dsimp only
    cases st.cursors.find other <;> exact hc
  | insert _ _ | getOrInsert _ _ | remove _ | get _ | scan _ _ _ _ | size | shape | counters
  | resetCounters | inspect => exact ⟨c, hc, .rest⟩

/-- A run that keeps a cursor takes it along a walk over the trees of the run. -/
theorem State.Sound.walk (h : st.Sound count) (ops : List (Op V))
    (hlt : ∀ i, count i + writeSections i st ops < 2 ^ 62)
    (hkeep : ∀ op ∈ ops, op.keeps name = true) (hc : st.cursors.find name = some c)
    (hP : ∀ done, done <+: ops → P (TreeScript.exec st done).tree) :
    ∃ d, (TreeScript.exec st ops).cursors.find name = some d ∧ Cursor.Walk P c (yields name st ops) d := by
  induction ops generalizing st count c with
  | nil => exact ⟨c, hc, .rest⟩
  | cons op ops ih =>
    have hsplit : ∀ i, count i + writeSections i st (op :: ops) =
        count i + st.tree.wrote (st.step op).1.tree i + writeSections i (st.step op).1 ops :=
      fun i => (Nat.add_assoc _ _ _).symm
    simp only [hsplit] at hlt
    obtain ⟨d, hd, hwalk⟩ := h.walk_step op (hkeep op List.mem_cons_self) hc (hP [] List.nil_prefix)
    have hnext := h.step op fun i => lt_of_le_of_lt (Nat.le_add_right _ _) (hlt i)
    obtain ⟨e, he, hrest⟩ := ih hnext hlt (fun o ho => hkeep o (List.mem_cons_of_mem op ho)) hd
      fun done hdone => hP (op :: done) (List.cons_prefix_cons.2 ⟨rfl, hdone⟩)
    exact ⟨e, he, hwalk.trans hrest⟩

/-- Take any run after which a cursor is open, and any run after it that neither turns, opens nor
    closes this cursor, whatever else it does, such that no node is write-locked 2 ^ 62 times in all.
    The next call of the cursor is exact for the tree as it is then; once it has yielded none it
    yields none over any tree. In the second run the cursor yields keys of its range, strictly in
    order, and exactly once every such key that is stored throughout, if it comes to the end or past
    the key. -/
theorem cursor_exact_over_run (before after : List (Op V)) (name : String) (c : Cursor)
    (hlocks : ∀ i, writeSections i (start : State V) (before ++ after) < 2 ^ 62)
    (hc : (exec (start : State V) before).cursors.find name = some c)
    (hkeep : ∀ op ∈ after, op.keeps name = true) :
    (c.done = false → c.Exact (exec start before).tree (c.next (exec start before).tree).item) ∧
    (∀ t : Tree V, (c.next t).item = none →
      ∀ u : Tree V, ((c.next t).cursor.next u).item = none ∧
        ((c.next t).cursor.next u).cursor = (c.next t).cursor) ∧
    (∀ l ∈ yields name (exec start before) after,
      c.dir.Follows c.resumeBound l.key ∧ c.isBeyond l.key = false) ∧
    (yields name (exec start before) after).Pairwise (fun k l => c.dir.isPast k.key l.key = true) ∧
    (∀ key, c.done = false → c.dir.Follows c.resumeBound key → c.isBeyond key = false →
      (∀ done, done <+: after → ((exec (start : State V) (before ++ done)).tree.get? key).isSome) →
      ∀ d, (exec (start : State V) (before ++ after)).cursors.find name = some d →
        (d.done = true ∨ ¬ d.dir.Follows d.resumeBound key) →
        ((yields name (exec start before) after).map Leaf.key).count key = 1) := by
  have hexec : ∀ more, exec (start : State V) (before ++ more) = exec (exec start before) more :=
    fun more => List.foldl_append
  have hlt : ∀ i, 0 + writeSections i (start : State V) before < 2 ^ 62 := by
    intro i
    have hi := hlocks i
    rw [writeSections_append] at hi
    omega
  have hlt' : ∀ i, 0 + writeSections i (start : State V) before +
      writeSections i (exec start before) after < 2 ^ 62 := by
    intro i
    have hi := hlocks i
    rw [writeSections_append] at hi
    omega
  have hsound := State.sound_start.exec before hlt
  obtain ⟨d, hd, hwalk⟩ := hsound.walk (P := fun _ => True) after hlt' hkeep hc fun _ _ => trivial
  refine ⟨?_, ?_, hwalk.ordered.1, hwalk.ordered.2, ?_⟩
  · intro hdone
    exact ((hsound.cursors name c hc).next hsound.valid hsound.numbered hdone).1
  · intro t hnone u
    obtain ⟨-, -, -, hitem⟩ := c.next_cursor t
    rw [hnone] at hitem
    rw [Cursor.next_of_done hitem]
    exact ⟨rfl, rfl⟩
  · intro key hdone hfollows hbeyond hstored e he hend
    obtain ⟨d', hd', hwalk'⟩ := hsound.walk (P := fun t => (t.get? key).isSome) after hlt' hkeep hc
      fun done hdone => by
        rw [← hexec]
        exact hstored done hdone
    rw [hexec, hd'] at he
    cases he
    exact hwalk'.count_eq_one hdone hfollows hbeyond hend

/-- A cursor that was opened before a key came in is exact, and what it yields while the key comes in
    and goes again is in order. -/
theorem cursor_exact_amid_changes :
    (Cursor.between none none).Exact
      (exec (start : State Nat) [.insert [1] 10, .openCursor "c" none none]).tree
      ((Cursor.between none none).next
        (exec (start : State Nat) [.insert [1] 10, .openCursor "c" none none]).tree).item ∧
    (yields "c" (exec (start : State Nat) [.insert [1] 10, .openCursor "c" none none])
      [.next "c" 1, .insert [2] 20, .remove [1], .next "c" 2]).Pairwise
        fun k l => Direction.forward.isPast k.key l.key = true := by
  have hlocks : ∀ i, writeSections i (start : State Nat)
      ([.insert [1] 10, .openCursor "c" none none] ++
        [.next "c" 1, .insert [2] 20, .remove [1], .next "c" 2]) < 2 ^ 62 :=
    fun i => lt_of_le_of_lt (writeSections_le_length i start _) (by decide)
  have hexact := cursor_exact_over_run [.insert [1] 10, .openCursor "c" none none]
    [.next "c" 1, .insert [2] 20, .remove [1], .next "c" 2] "c" (.between none none) hlocks rfl
    (by decide)
  exact ⟨hexact.1 rfl, hexact.2.2.2.1⟩

end TreeScript

end RadixStore
