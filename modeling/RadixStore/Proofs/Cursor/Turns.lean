import Mathlib
import RadixStore.Cursor.Turns
import RadixStore.Proofs.Cursor.Line
import RadixStore.Proofs.Cursor.Run

/-!
# Every call ends

The loop of a call comes to its end, with the leaf that the call is to find. A recovery throws away
the stale checkpoint that it began with, and what is put on the stack instead is not stale; so each
stale checkpoint is recovered from at most once, in this call or in a later one. The calls that are
made while the tree stays as it is recover together at most as often as there were stale checkpoints
at the first of them. A stale checkpoint that was not come to stays on the stack, so a call may
recover long after the tree was changed.
-/

namespace RadixStore

variable {V : Type}

/-! ### What a phase comes to -/

namespace Tree

variable {t : Tree V} {dir : Direction} {bound : Option Key} {phase phase' : Phase V}
  {budget budget' : Nat} {out : Option (Found V) × Nat}

/-- The checkpoints that are left when a call has ended. -/
def left : Option (Found V) → List Checkpoint
  | none => []
  | some f => f.stack

/-- From the phase the loop comes to its end with `out`, having spent no more than the budget on
    recoveries and stale checkpoints that are left over. -/
structure Settles (t : Tree V) (dir : Direction) (bound : Option Key) (phase : Phase V)
    (budget : Nat) (out : Option (Found V) × Nat) : Prop where
  ends : ∃ turns, ∀ r, (t.turn dir bound)^[turns] (phase, r) = (.over out.1, r + out.2)
  within : out.2 + t.stale (left out.1) ≤ budget
  inLine : ∀ f, out.1 = some f → Line t f.leaf.key f.stack

theorem settles_over {found : Option (Found V)}
    (hline : ∀ f, found = some f → Line t f.leaf.key f.stack) :
    t.Settles dir bound (.over found) (t.stale (left found)) (found, 0) where
  ends := ⟨0, fun _ => rfl⟩
  within := (Nat.zero_add _).le
  inLine := hline

/-- One turn more, in which `j` recoveries begin. -/
theorem Settles.before {j : Nat} (h : t.Settles dir bound phase' budget out)
    (hturn : ∀ r, t.turn dir bound (phase, r) = (phase', r + j)) (hbudget : j + budget ≤ budget') :
    t.Settles dir bound phase budget' (out.1, out.2 + j) where
  ends := by
    obtain ⟨turns, hends⟩ := h.ends
    refine ⟨turns + 1, fun r => ?_⟩
    rw [Function.iterate_succ_apply, hturn, hends, Nat.add_assoc, Nat.add_comm j]
  within := by
    have hwithin := h.within
    dsimp only
    omega
  inLine := h.inLine

theorem Settles.weaken (h : t.Settles dir bound phase budget out) (hbudget : budget ≤ budget') :
    t.Settles dir bound phase budget' out :=
  ⟨h.ends, h.within.trans hbudget, h.inLine⟩

theorem Settles.turn (h : t.Settles dir bound phase' budget out)
    (hturn : ∀ r, t.turn dir bound (phase, r) = (phase', r)) :
    t.Settles dir bound phase budget out :=
  h.before (j := 0) hturn (Nat.zero_add _).le

end Tree

/-! ### Going down -/

section

variable {t : Tree V} {dir : Direction} {bound : Option Key} {e : Entry} {n : Inner V}
  {stack : List Entry}

/-- The inner node that comes next in a valid node is reached, and valid there. -/
theorem Branch.Valid.of_entryPast {isRoot : Bool} {path : Key} {pos p : Int} {m : Inner V}
    (hn : n.Valid isRoot path) (h : n.entryPast dir pos = some (p, .inner m)) :
    ∃ q, n.Reaches path m q ∧ m.Valid false q ∧ q.length = path.length + n.stem.length + 1 := by
  obtain ⟨stem, hholds, hstem⟩ := hn.exists_stem
  have hnear := nearest_entryPast hholds.sound dir pos
  rw [h] at hnear
  obtain ⟨edge, -, hload, -⟩ := hnear
  obtain ⟨b, rfl⟩ := edge_of_load_inner hload
  refine ⟨path ++ stem ++ [b], .child hstem hload .here, hholds.valid_of_load_inner hload, ?_⟩
  rw [length_path_append_byte, hholds.stem_length]

theorem Branch.Valid.liveSnapshot {isRoot : Bool} {path : Key} (hn : n.Valid isRoot path) :
    n.lock.liveSnapshot = .ok ⟨n.lock.word⟩ := by
  obtain ⟨stem, hholds, -⟩ := hn
  exact hholds.liveSnapshot

/-- No node but the root is empty, so there is a leaf to come to below it. -/
theorem Branch.Valid.exists_firstLeaf? (dir : Direction) {n : Inner V} {path : Key} (hn : n.Valid false path) (here : Key)
    (seen : Snapshot) (cps : List Checkpoint) :
    ∃ f, n.firstLeaf? dir here seen dir.start cps = some f := by
  have hentry : n.entryPast dir dir.start ≠ none := by
    intro hnone
    obtain ⟨stem, hholds, -⟩ := hn.exists_stem
    obtain ⟨l, -, hl⟩ := (Node.valid_inner_iff.2 hn).exists_minLeaf n rfl
    obtain ⟨edge, c, hload, -⟩ := Node.has_inner_iff.1 hl
    have hnear := nearest_entryPast hholds.sound dir dir.start
    rw [hnone] at hnear
    rw [hnear edge trivial (Direction.passes_start dir edge)] at hload
    cases hload
  rw [Branch.firstLeaf?]
  split
  · rename_i hnone
    exact absurd hnone hentry
  · exact ⟨_, rfl⟩
  · rename_i p m hnext
    have hsize := sizeOf_lt_of_entryPast hnext
    obtain ⟨q, -, hm, -⟩ := hn.of_entryPast hnext
    rw [hm.liveSnapshot]
    exact Valid.exists_firstLeaf? dir hm _ _ _
termination_by sizeOf n

/-- When there is no leaf past the position, there is no entry. -/
theorem Branch.Valid.entryPast_of_firstLeaf? {isRoot : Bool} {path here : Key} {seen : Snapshot}
    {pos : Int} {cps : List Checkpoint} (hn : n.Valid isRoot path)
    (h : n.firstLeaf? dir here seen pos cps = none) : n.entryPast dir pos = none := by
  rw [Branch.firstLeaf?] at h
  split at h
  · assumption
  · cases h
  · rename_i p m hnext
    obtain ⟨q, -, hm, -⟩ := hn.of_entryPast hnext
    rw [hm.liveSnapshot] at h
    dsimp only at h
    obtain ⟨f, hf⟩ := hm.exists_firstLeaf? dir
      (m.pathTo (here.length + n.stem.length + 1)) ⟨m.lock.word⟩ (⟨n.id, here, seen, p⟩ :: cps)
    rw [hf] at h
    cases h

/-- A checkpoint whose entries are used up is dropped. -/
theorem Checkpoint.At.turn_of_none (h : e.checkpoint.At t n) (ht : t.Valid) {cps : List Checkpoint}
    (hnone : n.firstLeaf? dir e.checkpoint.path e.checkpoint.seen e.checkpoint.pos cps = none)
    (r : Nat) :
    t.turn dir bound (.going (e :: stack), r) = (.going stack, r) := by
  obtain ⟨isRoot, hn⟩ := h.reached.valid ht
  exact Tree.turn_going_end (h.resolve ht) (hn.entryPast_of_firstLeaf? hnone) r

/-- From a checkpoint that stands, the loop goes down to the first leaf. -/
theorem Checkpoint.At.settles_of_some {e : Entry} {n : Inner V} {stack : List Entry}
    {cps : List Checkpoint} (h : e.checkpoint.At t n) (ht : t.Valid) (hnum : t.Numbered)
    (hcps : stack.map Entry.checkpoint = cps) (hline : Line t e.checkpoint.path cps) {f : Found V}
    (hsome : n.firstLeaf? dir e.checkpoint.path e.checkpoint.seen e.checkpoint.pos cps = some f) :
    t.Settles dir bound (.going (e :: stack)) (t.stale cps) (some f, 0) := by
  obtain ⟨isRoot, hn⟩ := h.reached.valid ht
  obtain ⟨stem, hholds, hstem⟩ := hn.exists_stem
  have hmoved : ∀ pos, (e.moveTo pos).checkpoint.At t n := fun pos => h.moveTo pos
  have hid : ∀ pos, (⟨n.id, e.checkpoint.path, e.checkpoint.seen, pos⟩ : Checkpoint) =
      (e.moveTo pos).checkpoint := by
    intro pos
    rw [h.id_eq]
    rfl
  have hmap : ∀ pos, (e.moveTo pos :: stack).map Entry.checkpoint =
      (e.moveTo pos).checkpoint :: cps := by
    intro pos
    rw [List.map_cons, hcps]
  have hstale : ∀ pos, t.stale ((e.moveTo pos).checkpoint :: cps) = t.stale cps :=
    fun pos => Tree.stale_cons_of_ok ((hmoved pos).resolve ht) cps
  rw [Branch.firstLeaf?] at hsome
  split at hsome
  · cases hsome
  · rename_i p l hnext
    cases hsome
    have hnear := Branch.nearest_entryPast hholds.sound dir e.checkpoint.pos
    rw [hnext] at hnear
    obtain ⟨edge, -, hload, -⟩ := hnear
    have hkey : e.checkpoint.path <+: l.key := (List.prefix_append _ stem).trans
      (hholds.prefix_of_has (Node.Has.inner hload (Node.Has.leaf l)))
    have hover : t.Settles dir bound (.over (some ⟨l, (e.moveTo p).checkpoint :: cps⟩))
        (t.stale ((e.moveTo p).checkpoint :: cps))
        (some ⟨l, (e.moveTo p).checkpoint :: cps⟩, 0) := by
      refine Tree.settles_over fun f hf => ?_
      cases hf
      exact .cons ((hmoved p).rooted hnum) hkey hline
    rw [hstale, ← hmap] at hover
    rw [hid, ← hmap]
    exact hover.turn (Tree.turn_going_leaf (h.resolve ht) hnext)
  · rename_i p m hnext
    have hsize := Branch.sizeOf_lt_of_entryPast hnext
    obtain ⟨q, hreach, hm, hlen⟩ := hn.of_entryPast hnext
    have hpathTo : m.pathTo (e.checkpoint.path.length + n.stem.length + 1) = q := by
      rw [← hlen]
      exact hm.pathTo
    rw [hm.liveSnapshot] at hsome
    dsimp only at hsome
    rw [hpathTo, hid] at hsome
    -- the node that is gone down to stands, and so does the one above it
    have hat : (Entry.unvisited dir m.id q ⟨m.lock.word⟩).checkpoint.At t m :=
      ⟨h.reached.trans hreach, rfl, rfl⟩
    have hbelow := settles_of_some hat ht hnum (hmap p)
      (.cons ((hmoved p).rooted hnum) hreach.isPrefix hline) hsome
    rw [hstale, ← hpathTo] at hbelow
    exact hbelow.turn (Tree.turn_going_down (h.resolve ht) hnext hm.liveSnapshot)
termination_by sizeOf n

/-! ### Going up, and recovering -/

theorem Entry.checkpoints_settled (cps : List Checkpoint) :
    (cps.map Entry.settled).map Entry.checkpoint = cps := by
  rw [List.map_map]
  exact List.map_id _

/-- The loop goes through what was just sought before it comes to what lies beneath. -/
theorem Tree.Settles.firstAfter? (ht : t.Valid) (hnum : t.Numbered) {fresh cps : List Checkpoint}
    {key : Key} (hstand : ∀ cp ∈ fresh, ∃ n, cp.At t n) (hline : Line t key (fresh ++ cps))
    {out : Option (Found V) × Nat}
    (hrest : t.Settles dir bound (.going (cps.map .settled)) (t.stale cps) out) :
    t.Settles dir bound (.going (fresh.map .settled ++ cps.map .settled)) (t.stale cps)
      (match t.firstAfter? dir cps fresh with
        | some f => (some f, 0)
        | none => out) := by
  induction fresh generalizing key with
  | nil => exact hrest
  | cons cp fresh ih =>
    obtain ⟨n, hat⟩ := hstand cp List.mem_cons_self
    have hstand' : ∀ c ∈ fresh, ∃ n, c.At t n := fun c hc => hstand c (List.mem_cons_of_mem _ hc)
    have hate : (Entry.settled cp).checkpoint.At t n := hat
    cases hline with
    | cons _ _ hline =>
      have hline : Line t cp.path (fresh ++ cps) := hline
      have hcps : (fresh.map Entry.settled ++ cps.map Entry.settled).map Entry.checkpoint =
          fresh ++ cps := by
        rw [← List.map_append, Entry.checkpoints_settled]
      unfold Tree.firstAfter?
      rw [hat.resolve ht]
      dsimp only
      cases hf : n.firstLeaf? dir cp.path cp.seen cp.pos (fresh ++ cps) with
      | some f =>
        rw [← Tree.stale_append_of_at ht hstand']
        exact hate.settles_of_some ht hnum hcps hline hf
      | none => exact (ih hstand' hline).turn (hate.turn_of_none ht hf)

/-- Going on from checkpoints in line, and recovering among them, the loop comes to what the two
    functions say. The two call each other, so one induction on the stack goes for both. -/
theorem Tree.Valid.settles (ht : t.Valid) (hnum : t.Numbered) (dir : Direction)
    {cps : List Checkpoint} {key : Key} (hline : Line t key cps) (hbound : OnWay bound key) :
    t.Settles dir bound (.going (cps.map .settled)) (t.stale cps) (t.advance dir bound cps) ∧
      t.Settles dir bound (.recovering (cps.map .settled)) (t.stale cps)
        (t.recover dir bound cps) := by
  induction cps generalizing key with
  | nil =>
    have hover : t.Settles dir bound (.over none) 0 (none, 0) :=
      Tree.settles_over fun f hf => by cases hf
    have hend : t.Settles dir bound (.going []) 0 (none, 0) := hover.turn fun r => rfl
    refine ⟨?_, ?_⟩
    · rw [Tree.advance]
      exact hend
    · obtain ⟨fresh, key, hfresh, hstand, -, hall⟩ := ht.seek_in_line hnum dir bound
      rw [← List.append_nil fresh] at hall
      have hgoing := Tree.Settles.firstAfter? ht hnum hstand hall hend
      have hout : (match t.firstAfter? dir [] fresh with
          | some f => (some f, 0)
          | none => (none, 0)) = (t.firstAfter? dir [] fresh, 0) := by
        cases t.firstAfter? dir [] fresh <;> rfl
      rw [List.map_nil, List.append_nil, hout] at hgoing
      have hseeking := hgoing.turn (Tree.turn_seeking hfresh)
      rw [Tree.recover, hfresh]
      exact hseeking.turn fun r => rfl
  | cons cp cps ih =>
    cases hline with
    | cons hcp hpath hline =>
      have hon : OnWay bound cp.path := fun b hb => hpath.trans (hbound b hb)
      obtain ⟨hadvance, hrecover⟩ := ih hline hon
      cases hcase : t.resolve cp with
      | error fault =>
        have hdropped : t.Settles dir bound (.recovering ((cp :: cps).map .settled)) (t.stale cps)
            (t.recover dir bound cps) :=
          hrecover.turn (Tree.turn_recovering_stale hcase)
        rw [Tree.stale_cons_of_error hcase]
        refine ⟨?_, ?_⟩
        · rw [Tree.advance, hcase]
          exact hdropped.before (Tree.turn_going_stale hcase) (Nat.add_comm _ _).le
        · rw [Tree.recover, hcase]
          exact hdropped.weaken (Nat.le_succ _)
      | ok n =>
        have hat := hcp.at_of_resolve ht hcase
        have hate : (Entry.settled cp).checkpoint.At t n := hat
        rw [Tree.stale_cons_of_ok hcase]
        refine ⟨?_, ?_⟩
        · rw [Tree.advance, hcase]
          dsimp only
          cases hf : n.firstLeaf? dir cp.path cp.seen cp.pos cps with
          | some f => exact hate.settles_of_some ht hnum (Entry.checkpoints_settled cps) hline hf
          | none => exact hadvance.turn (hate.turn_of_none ht hf)
        · obtain ⟨fresh, key, hfresh, hstand, -, hall⟩ := hat.seekFrom ht hnum dir hon hline
          have hgoing := Tree.Settles.firstAfter? ht hnum hstand hall hadvance
          rw [Tree.recover, hcase]
          dsimp only
          rw [hfresh]
          exact hgoing.turn (Tree.turn_recovering_seek hcase hfresh)

end

/-! ### Calls -/

namespace Cursor

variable {t u : Tree V} {c : Cursor}

/-- A cursor that has not set out, or has come to the end, has no checkpoints; those of one that is
    under way stand in line on the way to the key that it yielded last. -/
structure InLine (t : Tree V) (c : Cursor) : Prop where
  stack_of_unstarted : c.started = false → c.stack = []
  stack_of_done : c.done = true → c.stack = []
  underWay : c.done = false → c.started = true → ∃ key, c.last = some key ∧ Line t key c.stack

theorem InLine.keepsCovers (h : c.InLine t) (he : t.KeepsCovers u) : c.InLine u where
  stack_of_unstarted := h.stack_of_unstarted
  stack_of_done := h.stack_of_done
  underWay hdone hstarted := by
    obtain ⟨key, hlast, hline⟩ := h.underWay hdone hstarted
    exact ⟨key, hlast, hline.keepsCovers he⟩

theorem inLine_between (lower upper : Option Key) : (between lower upper).InLine t where
  stack_of_unstarted _ := rfl
  stack_of_done _ := rfl
  underWay _ hstarted := by cases hstarted

theorem inLine_reverse (c : Cursor) : c.reverse.InLine t where
  stack_of_unstarted _ := rfl
  stack_of_done _ := rfl
  underWay _ hstarted := by cases hstarted

theorem inLine_finish (c : Cursor) : c.finish.InLine t where
  stack_of_unstarted _ := rfl
  stack_of_done _ := rfl
  underWay hdone _ := by cases hdone

theorem next_eq_conclude (hdone : c.done = false) {stack : List Checkpoint}
    (hready : c.ready t = .ok stack) :
    c.next t = c.conclude (t.advance c.dir c.resumeBound stack).1
      (t.advance c.dir c.resumeBound stack).2 := by
  unfold Cursor.next
  rw [if_neg (by rw [hdone]; exact Bool.false_ne_true), hready]
  dsimp only
  rcases t.advance c.dir c.resumeBound stack with ⟨- | found, recoveries⟩ <;> rfl

/-- From the checkpoints with which a cursor sets about a call, the loop comes to the step. -/
theorem InLine.exists_ready (ht : t.Valid) (hnum : t.Numbered) (h : c.InLine t)
    (hdone : c.done = false) :
    ∃ stack, c.ready t = .ok stack ∧ t.Settles c.dir c.resumeBound c.begin (t.stale c.stack)
      (t.advance c.dir c.resumeBound stack) := by
  unfold ready begin
  cases hstarted : c.started with
  | true =>
    obtain ⟨key, hlast, hline⟩ := h.underWay hdone hstarted
    refine ⟨c.stack, rfl, (ht.settles hnum c.dir hline ?_).1⟩
    intro bound hbound
    rw [resumeBound_of_last hlast] at hbound
    cases hbound
    exact List.prefix_refl _
  | false =>
    obtain ⟨fresh, key, hfresh, hstand, hkey, hline⟩ := ht.seek_in_line hnum c.dir c.resumeBound
    have hnone : t.stale fresh = 0 := by
      have happ := Tree.stale_append_of_at ht hstand []
      rwa [List.append_nil] at happ
    have hgoing := (ht.settles hnum c.dir hline hkey).1
    rw [hnone] at hgoing
    exact ⟨fresh, hfresh, (hgoing.turn (Tree.turn_seeking hfresh)).weaken (Nat.zero_le _)⟩

/-- A call of a cursor that is not finished ends. -/
theorem InLine.ends (ht : t.Valid) (hnum : t.Numbered) (h : c.InLine t) (hdone : c.done = false) :
    ∃ turns found recoveries,
      (t.turn c.dir c.resumeBound)^[turns] (c.begin, 0) = (.over found, recoveries) ∧
        c.next t = c.conclude found recoveries := by
  obtain ⟨stack, hready, hsettles⟩ := h.exists_ready ht hnum hdone
  obtain ⟨turns, hends⟩ := hsettles.ends
  refine ⟨turns, _, _, ?_, next_eq_conclude hdone hready⟩
  rw [hends, Nat.zero_add]

/-- The recoveries of a call, and the stale checkpoints that it leaves, are together no more than the
    stale checkpoints that it met with. -/
theorem InLine.next (ht : t.Valid) (hnum : t.Numbered) (h : c.InLine t) :
    (c.next t).recoveries + t.stale (c.next t).cursor.stack ≤ t.stale c.stack ∧
      (c.next t).cursor.InLine t := by
  cases hdone : c.done with
  | true =>
    rw [next_of_done hdone]
    exact ⟨(Nat.zero_add _).le, h⟩
  | false =>
    obtain ⟨stack, hready, hsettles⟩ := h.exists_ready ht hnum hdone
    have hwithin := hsettles.within
    rw [next_eq_conclude hdone hready]
    cases hfound : (t.advance c.dir c.resumeBound stack).1 with
    | none =>
      rw [hfound] at hwithin
      exact ⟨hwithin, inLine_finish c⟩
    | some f =>
      rw [hfound] at hwithin
      unfold conclude
      dsimp only
      split
      · exact ⟨(Nat.le_add_right _ _).trans hwithin, inLine_finish c⟩
      · refine ⟨hwithin, ?_, ?_, ?_⟩
        · intro hstarted
          cases hstarted
        · intro hfinished
          exact absurd (hdone.symm.trans hfinished) Bool.false_ne_true
        · intro _ _
          exact ⟨_, rfl, hsettles.inLine f hfound⟩

/-- As long as the tree stays as it is, no stale checkpoint is recovered from twice. -/
theorem InLine.nexts (ht : t.Valid) (hnum : t.Numbered) (h : c.InLine t) (count : Nat) :
    (c.nexts t count).2.2 + t.stale (c.nexts t count).2.1.stack ≤ t.stale c.stack ∧
      (c.nexts t count).2.1.InLine t := by
  induction count generalizing c with
  | zero => exact ⟨(Nat.zero_add _).le, h⟩
  | succ count ih =>
    obtain ⟨hstep, hnext⟩ := h.next ht hnum
    obtain ⟨hrest, hlast⟩ := ih hnext
    refine ⟨?_, hlast⟩
    show (c.next t).recoveries + ((c.next t).cursor.nexts t count).2.2 +
      t.stale ((c.next t).cursor.nexts t count).2.1.stack ≤ t.stale c.stack
    omega

end Cursor

/-! ### Scripts -/

namespace TreeScript

/-- Whatever a script does, its cursors keep their checkpoints in line. -/
theorem State.inLine_step {st : State V} (ht : st.tree.Valid) (hnum : st.tree.Numbered)
    (h : ∀ name c, st.cursors.find name = some c → c.InLine st.tree) (op : Op V) :
    ∀ name c, (st.step op).1.cursors.find name = some c → c.InLine (st.step op).1.tree := by
  intro name d hd
  rcases find_step st op hd with hold | ⟨lower, upper, rfl⟩ | ⟨c, rfl⟩ | ⟨c, n, hc, htree, rfl⟩
  · exact (h name d hold).keepsCovers (step_keepsCovers ht op)
  · exact Cursor.inLine_between lower upper
  · exact Cursor.inLine_reverse c
  · rw [htree]
    exact ((h name c hc).nexts ht hnum n).2

theorem exec_inLine (ops : List (Op V)) {st : State V} (ht : st.tree.Valid)
    (hnum : st.tree.Numbered) (h : ∀ name c, st.cursors.find name = some c → c.InLine st.tree) :
    ∀ name c, (exec st ops).cursors.find name = some c → c.InLine (exec st ops).tree := by
  induction ops generalizing st with
  | nil => exact h
  | cons op ops ih =>
    obtain ⟨hvalid, hnumbered, -⟩ := State.step_evolves ht hnum op
    exact ih hvalid hnumbered (State.inLine_step ht hnum h op)

theorem exec_start_inLine (ops : List (Op V)) {name : String} {c : Cursor}
    (hc : (exec (start : State V) ops).cursors.find name = some c) :
    c.InLine (exec (start : State V) ops).tree :=
  exec_inLine ops Tree.valid_empty Tree.numbered_empty (fun name c h => by cases h) name c hc

/-- Whether a step leaves the cursor called `name` as it is. -/
def Op.leaves (name : String) : Op V → Bool
  | .openCursor other _ _ | .reverse other | .close other | .next other _ => other ≠ name
  | _ => true

/-- Whether a step opens the cursor called `name`, or turns it round. -/
def Op.setsOut (name : String) : Op V → Bool
  | .openCursor other _ _ | .reverse other => other = name
  | _ => false

theorem State.find_step_of_leaves {st : State V} {name : String} {op : Op V}
    (h : op.leaves name = true) : (st.step op).1.cursors.find name = st.cursors.find name := by
  have hbind : ∀ (other : String) (x : Cursor), other ≠ name →
      (st.cursors.bind other x).find name = st.cursors.find name :=
    fun other x hne => Bindings.find_bind_of_ne _ _ hne.symm
  cases op with
  | openCursor other _ _ => exact hbind other _ (of_decide_eq_true h)
  | close other => exact Bindings.find_unbind_of_ne _ (of_decide_eq_true h : other ≠ name).symm
  | reverse other =>
    unfold step
    dsimp only
    cases st.cursors.find other with
    | none => rfl
    | some x => exact hbind other _ (of_decide_eq_true h)
  | next other _ =>
    unfold step
    dsimp only
    cases st.cursors.find other with
    | none => rfl
    | some x => exact hbind other _ (of_decide_eq_true h)
  | inspectCursor other =>
    unfold step
    dsimp only
    cases st.cursors.find other <;> rfl
  | insert _ _ | getOrInsert _ _ | remove _ | get _ | scan _ _ _ _ | size | shape | counters
  | resetCounters | inspect => rfl

theorem find_exec_of_leaves {st : State V} {name : String} {ops : List (Op V)}
    (h : ∀ op ∈ ops, op.leaves name = true) :
    (exec st ops).cursors.find name = st.cursors.find name := by
  induction ops generalizing st with
  | nil => rfl
  | cons op ops ih =>
    exact (ih fun o ho => h o (List.mem_cons_of_mem _ ho)).trans
      (State.find_step_of_leaves (h op List.mem_cons_self))

/-- A cursor that was just opened or turned round has not set out. -/
theorem State.find_step_of_setsOut {st : State V} {name : String} {op : Op V} {c : Cursor}
    (h : op.setsOut name = true) (hc : (st.step op).1.cursors.find name = some c) :
    c.started = false := by
  cases op with
  | openCursor other lower upper =>
    have hname : other = name := of_decide_eq_true h
    subst hname
    have hc : (st.cursors.bind other (.between lower upper)).find other = some c := hc
    rw [Bindings.find_bind_self] at hc
    cases hc
    rfl
  | reverse other =>
    have hname : other = name := of_decide_eq_true h
    subst hname
    unfold step at hc
    dsimp only at hc
    cases hold : st.cursors.find other with
    | none =>
      rw [hold] at hc
      dsimp only at hc
      rw [hold] at hc
      cases hc
    | some x =>
      rw [hold] at hc
      dsimp only at hc
      rw [Bindings.find_bind_self] at hc
      cases hc
      rfl
  | _ => cases h

theorem State.step_next {st : State V} {name : String} {c : Cursor}
    (hc : st.cursors.find name = some c) (count : Nat) :
    (st.step (.next name count)).1 =
      { st with
        cursors := st.cursors.bind name (c.nexts st.tree count).2.1
        counters := st.counters.recovered (c.nexts st.tree count).2.2 } := by
  unfold step
  dsimp only
  rw [hc]

/-- Take any run after which a cursor is open. Its next call ends; it counts no more recoveries than
    there are stale checkpoints on its stack, and leaves of these no more than it did not count. So
    when the tree is as it was at the previous call, only checkpoints that were stale then and have
    not been come to since are counted, and none when there was none; and no recovery is counted at
    the first call after the cursor was opened or turned round. -/
theorem recoveries_le_stale (ops : List (Op V)) (name : String) (c : Cursor)
    (hc : (exec (start : State V) ops).cursors.find name = some c) :
    (c.done = true → c.next (exec start ops).tree = ⟨none, c, 0⟩) ∧
    (c.done = false → ∃ turns found recoveries,
      ((exec start ops).tree.turn c.dir c.resumeBound)^[turns] (c.begin, 0) =
          (.over found, recoveries) ∧
        c.next (exec start ops).tree = c.conclude found recoveries) ∧
    (∀ count, (exec start (ops ++ [.next name count])).counters.recoveries =
        (exec start ops).counters.recoveries + (c.nexts (exec start ops).tree count).2.2 ∧
      (c.nexts (exec start ops).tree count).2.2 +
          (exec start ops).tree.stale (c.nexts (exec start ops).tree count).2.1.stack ≤
        (exec start ops).tree.stale c.stack) ∧
    (∀ earlier later count d, ops = earlier ++ .next name count :: later →
      (∀ op ∈ later, op.leaves name = true) →
      (exec (start : State V) earlier).cursors.find name = some d →
      (exec (start : State V) earlier).tree = (exec start ops).tree →
      (d.nexts (exec start ops).tree count).2.2 + (c.next (exec start ops).tree).recoveries ≤
        (exec start ops).tree.stale d.stack) ∧
    (∀ earlier later op, ops = earlier ++ op :: later → op.setsOut name = true →
      (∀ o ∈ later, o.leaves name = true) → (c.next (exec start ops).tree).recoveries = 0) := by
  obtain ⟨ht, hnum⟩ := exec_start_numbered ops
  have hline := exec_start_inLine ops hc
  have hnext := (hline.next ht hnum).1
  have hexec : ∀ (before after : List (Op V)),
      exec (start : State V) (before ++ after) = exec (exec start before) after :=
    fun before after => List.foldl_append
  refine ⟨fun hdone => Cursor.next_of_done hdone _, hline.ends ht hnum, ?_, ?_, ?_⟩
  · intro count
    refine ⟨?_, (hline.nexts ht hnum count).1⟩
    rw [hexec]
    exact congrArg (fun st => st.counters.recoveries) (State.step_next hc count)
  · intro earlier later count d hops hleaves hd htree
    have hbefore := ((exec_start_inLine earlier hd).nexts (htree ▸ ht) (htree ▸ hnum) count).1
    have hc' : c = (d.nexts (exec (start : State V) earlier).tree count).2.1 := by
      rw [hops, hexec] at hc
      have hfound : (((exec (start : State V) earlier).step (.next name count)).1).cursors.find name
          = some c := (find_exec_of_leaves hleaves).symm.trans hc
      rw [State.step_next hd] at hfound
      exact (Option.some.inj ((Bindings.find_bind_self _ _ _).symm.trans hfound)).symm
    rw [htree] at hbefore hc'
    rw [hc'] at hnext ⊢
    omega
  · intro earlier later op hops hsets hleaves
    have hstarted : c.started = false := by
      rw [hops, hexec] at hc
      exact State.find_step_of_setsOut hsets ((find_exec_of_leaves hleaves).symm.trans hc)
    rw [hline.stack_of_unstarted hstarted] at hnext
    exact Nat.eq_zero_of_le_zero ((Nat.le_add_right _ _).trans hnext)

/-- A cursor that has yielded the first of three keys when a fourth comes in at the root: one of its
    checkpoints is stale, and two calls over the same tree count one recovery at most. -/
theorem recoveries_le_stale_amid_insertion :
    let before : List (Op Nat) := [.insert [1, 1] 10, .insert [1, 2] 20, .openCursor "c" none none,
      .next "c" 1, .insert [3] 30]
    let ops := before ++ .next "c" 1 :: [.get [3]]
    ∃ c d, (exec start before).cursors.find "c" = some d ∧
      (exec start ops).cursors.find "c" = some c ∧ c.done = false ∧
      (∃ turns found recoveries,
        ((exec start ops).tree.turn c.dir c.resumeBound)^[turns] (c.begin, 0) =
            (.over found, recoveries) ∧
          c.next (exec start ops).tree = c.conclude found recoveries) ∧
      (d.nexts (exec start ops).tree 1).2.2 + (c.next (exec start ops).tree).recoveries ≤ 1 := by
  intro before ops
  have hd : ((exec start before).cursors.find "c").map (fun d => (exec start ops).tree.stale d.stack) =
      some 1 := by decide +kernel
  have hc : ((exec start ops).cursors.find "c").map Cursor.done = some false := by decide +kernel
  obtain ⟨d, hd, hstale⟩ := Option.map_eq_some_iff.1 hd
  obtain ⟨c, hc, hdone⟩ := Option.map_eq_some_iff.1 hc
  have htree : (exec start before).tree = (exec start ops).tree :=
    (congrArg State.tree (State.step_next hd 1)).symm
  obtain ⟨-, hends, -, hagain, -⟩ := recoveries_le_stale ops "c" c hc
  have hboth := hagain before [.get [3]] 1 d rfl (by decide) hd htree
  exact ⟨c, d, hd, hc, hdone, hends hdone, hboth.trans hstale.le⟩

/-- A call may recover although the tree is as it was at the previous call: the root was changed
    before that one, which did not come back to it. -/
theorem recovery_over_unchanged_tree :
    let before : List (Op Nat) := [.insert [1, 1] 10, .insert [1, 2] 20, .openCursor "c" none none,
      .next "c" 1, .insert [3] 30]
    let previous := before ++ [.next "c" 1]
    (exec start previous).tree = (exec start before).tree ∧
      (exec start previous).counters.recoveries = 0 ∧
      (exec start (previous ++ [.next "c" 1])).counters.recoveries = 1 := by
  intro before previous
  have hopen : ((exec start before).cursors.find "c").isSome = true := by decide +kernel
  obtain ⟨c, hc⟩ := Option.isSome_iff_exists.1 hopen
  have htree : (exec start previous).tree = (exec start before).tree := by
    show ((exec start before).step (.next "c" 1)).1.tree = _
    rw [State.step_next hc]
  exact ⟨htree, by decide +kernel, by decide +kernel⟩

end TreeScript

end RadixStore
