import Mathlib
import RadixStore.Proofs.Tree.Map
import RadixStore.Proofs.Tree.Rank
import RadixStore.Proofs.Tree.Remove

/-!
# The counters balance with the shape

A growth replaces a node by one whose rank is higher by one, a shrinking by one whose rank is lower by
one, and nothing else changes the rank of a tree: a node that is put above others is of the smallest
size, and so is one that collapses. So the growths and shrinkings that were counted since the tree was new
say how much rank there is in it, whatever the operations were. No operation rearranges the tree more than
once.
-/

namespace RadixStore

variable {V : Type}

/-! ### Outcomes -/

/-- One for a growth. -/
def growths : Option Reshape → Nat
  | some .grow => 1
  | _ => 0

/-- One for a shrinking. -/
def shrinkings : Option Reshape → Nat
  | some .shrink => 1
  | _ => 0

/-- The rank changes by what is counted. -/
def Patch.Balances (p : Patch V) (n : Inner V) : Prop :=
  ∃ c, p.change.node? = some c ∧
    c.rank + shrinkings p.reshape = (Node.inner n).rank + growths p.reshape

def Outcome.Balances (n : Inner V) : Outcome V → Prop
  | .unchanged _ => True
  | .patched p => p.Balances n

theorem Except.exists_of_bind_eq_ok {ε α β : Type} {x : Except ε α} {f : α → Except ε β} {y : β}
    (h : x >>= f = .ok y) : ∃ a, x = .ok a ∧ f a = .ok y := by
  cases x with
  | error e => cases h
  | ok a => exact ⟨a, rfl, h⟩

theorem Kind.rank_grown {k : Kind} (h : k ≠ .node256) : k.grown.rank = k.rank + 1 := by
  cases k <;> simp_all [grown, rank]

theorem Kind.rank_shrunk {k : Kind} (h : k ≠ .node4) : k.shrunk.rank + 1 = k.rank := by
  cases k <;> simp_all [shrunk, rank]

namespace Branch

variable {n m : Inner V} {path stem : Key} {isRoot : Bool} {edge : Edge} {l old : Leaf V} {id : NodeId}
  {b : UInt8} {key : Key} {v : V} {out : Outcome V}

theorem balances_inPlace {old : Option V} (h : (Node.inner m).rank = (Node.inner n).rank) :
    (Outcome.inPlace m old).Balances n :=
  ⟨_, rfl, h⟩

/-- A leaf may come, go or be exchanged for another one without a change of rank. -/
theorem Alters.rank_of_leaves (o o' : Option (Leaf V)) (h : n.Alters m edge (o.map Node.leaf))
    (hn : n.body.Sound) (hload : n.load edge = o'.map Node.leaf) :
    (Node.inner m).rank = (Node.inner n).rank := by
  have hrank := h.rank_eq hn
  rw [hload, rankOf_mapLeaf, rankOf_mapLeaf] at hrank
  exact hrank

/-! ### Storing a key -/

theorem Holds.balances_placeLeaf (hn : n.Holds path stem) (hfree : n.load edge = none)
    (hroom : ∀ b, edge = .byte b → n.count < n.kind.capacity) (h : (do
      let lock ← n.lock.writeSection
      let n ← n.place edge l
      .ok (Outcome.inPlace { n with lock } none)) = Except.ok out) : out.Balances n := by
  obtain ⟨m, hm, -, halters⟩ := alters_place hn.sound l hfree hroom
  rw [hn.idle.writeSection, hm] at h
  cases h
  exact balances_inPlace ((halters.withLock n.lock.stepped).rank_of_leaves (some l) none
    hn.sound hfree)

/-- A full node with a free edge for a byte, where a leaf can go, is not of the largest kind. -/
theorem kind_ne_node256 (hn : n.body.Sound) (l : Leaf V) (hfree : n.load (.byte b) = none)
    (hfull : n.isFull = true) : n.kind ≠ .node256 := by
  intro hkind
  have hcap : n.kind.capacity ≤ n.count := of_decide_eq_true hfull
  rw [hkind] at hcap
  exact absurd (count_lt_of_free (c := .leaf l) hn hfree) (Nat.not_lt_of_le hcap)

theorem Holds.balances_grow (hn : n.Holds path stem) (hfree : n.load (.byte b) = none)
    (hfull : n.isFull = true) (h : n.addLeaf (.byte b) l id = .ok out) : out.Balances n := by
  obtain ⟨g, m, hg, hm, hresizes, -, -⟩ := exists_grown hn.sound hfree (.leaf l) id
  unfold Branch.addLeaf at h
  rw [hfull] at h
  obtain ⟨lock, -, h⟩ := Except.exists_of_bind_eq_ok h
  obtain ⟨g', hg', h⟩ := Except.exists_of_bind_eq_ok h
  obtain ⟨m', hm', h⟩ := Except.exists_of_bind_eq_ok h
  cases h
  rw [hg] at hg'
  cases hg'
  rw [hm] at hm'
  cases hm'
  have hrank := rank_update hn.sound hresizes.sound hresizes.load_eq
  have hleaf : rankOf (some (Node.leaf l)) = 0 := Node.rank_leaf l
  have hnone : rankOf (none : Option (Node V)) = 0 := rfl
  rw [hfree, hleaf, hnone, hresizes.kind_eq,
    Kind.rank_grown (kind_ne_node256 hn.sound l hfree hfull)] at hrank
  refine ⟨_, rfl, ?_⟩
  show (Node.inner m).rank + 0 = (Node.inner n).rank + 1
  omega

theorem Holds.balances_addLeaf (hn : n.Holds path stem) (hfree : n.load edge = none)
    (h : n.addLeaf edge l id = .ok out) : out.Balances n := by
  cases edge with
  | terminal =>
    unfold Branch.addLeaf at h
    exact hn.balances_placeLeaf hfree (fun b hb => by cases hb) h
  | byte b =>
    cases hfull : n.isFull with
    | false =>
      have hroom : n.count < n.kind.capacity := Nat.lt_of_not_le (of_decide_eq_false hfull)
      unfold Branch.addLeaf at h
      rw [hfull] at h
      exact hn.balances_placeLeaf hfree (fun _ _ => hroom) h
    | true => exact hn.balances_grow hfree hfull h

theorem Holds.balances_insertOver (hn : n.Holds path stem) (hload : n.load edge = some (.leaf old))
    {value : V} {mode : InsertMode} (h : n.insertOver edge old value mode = .ok out) :
    out.Balances n := by
  cases mode with
  | ifAbsent =>
    cases h
    trivial
  | upsert =>
    unfold Branch.insertOver at h
    rw [hn.idle.writeSection] at h
    cases h
    have hsome : (n.load edge).isSome := by rw [hload]; rfl
    have halters := (alters_replace hn.sound hsome (suits_leaf edge ⟨old.key, value⟩)).withLock
      n.lock.stepped
    exact balances_inPlace (halters.rank_of_leaves (some ⟨old.key, value⟩) (some old)
      hn.sound hload)

/-- A node of the smallest size with two leaves is put where a leaf was. -/
theorem Holds.balances_splitLeaf (hn : n.Holds path stem) (hload : n.load edge = some (.leaf old))
    {depth : Nat} (h : n.splitLeaf edge old l depth id = .ok out) : out.Balances n := by
  unfold Branch.splitLeaf at h
  split at h
  · obtain ⟨lock, -, h⟩ := Except.exists_of_bind_eq_ok h
    obtain ⟨lower, hlower, h⟩ := Except.exists_of_bind_eq_ok h
    obtain ⟨fork, hfork, h⟩ := Except.exists_of_bind_eq_ok h
    cases h
    obtain ⟨hkind, hrank⟩ := rank_place (rank_empty _ _ _).1 hlower
    obtain ⟨-, hrank'⟩ := rank_place hkind hfork
    rw [hrank, (rank_empty _ _ _).2] at hrank'
    refine balances_inPlace ?_
    cases edge with
    | terminal => exact rank_congr rfl
    | byte b =>
      have hsome : (n.load (.byte b)).isSome := by rw [hload]; rfl
      have hreplaced := (alters_replace hn.sound hsome (suits_byte b (.inner fork))).rank_eq hn.sound
      have hold : rankOf (some (Node.leaf old)) = 0 := Node.rank_leaf old
      have hnew : rankOf (some (Node.inner fork)) = 0 := hrank'
      rw [hload, hold, hnew] at hreplaced
      have hsame : (Node.inner (n.replace (.byte b) (.inner fork))).rank = (Node.inner n).rank :=
        Nat.add_right_cancel hreplaced
      refine Eq.trans ?_ hsame
      exact rank_congr rfl
  · cases h

/-- A node of the smallest size is put above the node. -/
theorem balances_splitStem {depth common : Nat} {stem : Key}
    (h : n.splitStem l depth common stem id = .ok out) : out.Balances n := by
  unfold Branch.splitStem at h
  split at h
  · cases h
  · obtain ⟨lock, -, h⟩ := Except.exists_of_bind_eq_ok h
    obtain ⟨upper, hupper, h⟩ := Except.exists_of_bind_eq_ok h
    obtain ⟨fork, hfork, h⟩ := Except.exists_of_bind_eq_ok h
    cases h
    obtain ⟨hkind, hrank⟩ := rank_place (rank_empty _ _ _).1 hupper
    obtain ⟨-, hrank'⟩ := rank_insertChild hkind hfork
    rw [hrank, (rank_empty _ _ _).2, Kind.rank, Nat.zero_add] at hrank'
    exact ⟨_, rfl, hrank'.trans (rank_congr rfl)⟩

/-- What balances below a child balances at the node. -/
theorem Holds.balances_lift (hn : n.Holds path stem) {c : Inner V}
    (hload : n.load (.byte b) = some (.inner c)) {below : Outcome V} (hbelow : below.Balances c)
    (h : n.lift (.byte b) below = .ok out) : out.Balances n := by
  have hsome : (n.load (.byte b)).isSome := by rw [hload]; rfl
  cases below with
  | unchanged found =>
    cases h
    trivial
  | patched p =>
    obtain ⟨d, hd, hrank⟩ := hbelow
    obtain ⟨change, old, reshape, retired⟩ := p
    have hreplaced : (Node.inner (n.replace (.byte b) d)).rank + (Node.inner c).rank =
        (Node.inner n).rank + d.rank := by
      have halters := (alters_replace hn.sound hsome (suits_byte b d)).rank_eq hn.sound
      rw [hload] at halters
      exact halters
    dsimp only at hrank
    cases change with
    | inPlace d' =>
      cases hd
      cases h
      refine ⟨_, rfl, ?_⟩
      dsimp only
      omega
    | relinked d' =>
      cases hd
      have hlock : ∀ lock, (Node.inner { n.replace (.byte b) d with lock }).rank =
          (Node.inner (n.replace (.byte b) d)).rank := fun lock => rank_congr rfl
      have h : ((n.lock.writeSection.map fun lock => { n.replace (.byte b) d with lock }).map
          fun m => Outcome.patched ⟨.inPlace m, old, reshape, retired⟩) = .ok out := h
      cases hsection : n.lock.writeSection with
      | error e =>
        rw [hsection] at h
        cases h
      | ok lock =>
        rw [hsection] at h
        cases h
        refine ⟨_, rfl, (congrArg (· + shrinkings reshape) (hlock lock)).trans ?_⟩
        dsimp only
        omega
    | unlinked => cases hd

/-! ### Removing a key -/

theorem Holds.balances_eraseInPlace (hn : n.Holds path stem) (hload : n.load edge = some (.leaf l))
    (h : n.eraseInPlace edge v = .ok out) : out.Balances n := by
  obtain ⟨lock, -, h⟩ := Except.exists_of_bind_eq_ok h
  cases h
  have hsome : (n.load edge).isSome := by rw [hload]; rfl
  have halters := (alters_erase hn.sound hsome).withLock lock
  exact balances_inPlace (halters.rank_of_leaves none (some l) hn.sound hload)

theorem Holds.balances_shrink (hn : n.Holds path stem) (hload : n.load (.byte b) = some (.leaf l))
    (hshrink : n.kind.shouldShrink (n.count - 1) = true) (h : n.shrink b v id = .ok out) :
    out.Balances n := by
  obtain ⟨hkind, hle⟩ := Kind.shouldShrink_iff.1 hshrink
  have hsome : (n.load (.byte b)).isSome := by
    rw [hload]
    rfl
  obtain ⟨m, hm, hresizes, -⟩ := exists_shrunk hn.sound hsome hle id
  obtain ⟨lock, -, h⟩ := Except.exists_of_bind_eq_ok h
  obtain ⟨m', hm', h⟩ := Except.exists_of_bind_eq_ok h
  cases h
  rw [hm] at hm'
  cases hm'
  have hrank := rank_update hn.sound hresizes.sound hresizes.load_eq
  have hleaf : rankOf (some (Node.leaf l)) = 0 := Node.rank_leaf l
  have hnone : rankOf (none : Option (Node V)) = 0 := rfl
  rw [hload, hleaf, hnone, hresizes.kind_eq, ← Kind.rank_shrunk hkind] at hrank
  refine ⟨_, rfl, ?_⟩
  show (Node.inner m).rank + 1 = (Node.inner n).rank + 0
  omega

/-- The entry that is left over may take over the stem, which does not count. -/
theorem rank_survivor {depth : Nat} {c d : Node V} (h : n.survivor key depth edge c = .ok d) :
    d.rank = c.rank := by
  unfold Branch.survivor at h
  split at h
  · obtain ⟨lock, -, h⟩ := Except.exists_of_bind_eq_ok h
    split at h
    · cases h
      exact rank_congr rfl
    · cases h
  · cases h
    rfl

/-- A node of the smallest size gives way to its other entry. -/
theorem Holds.balances_collapse (hn : n.Holds path stem) (hs : n.Shaped false stem)
    (hload : n.load edge = some (.leaf l)) (hkind : n.kind = .node4) (hle : n.entryCount ≤ 2)
    {depth : Nat} (h : n.collapse key depth edge v = .ok out) : out.Balances n := by
  obtain ⟨edge', c, hfind, hload', -, hrest⟩ :=
    exists_other hn.sound (Nat.le_antisymm hle hs.1) hload
  have hother : ∀ e, e ≠ edge' → rankOf (n.load e) = 0 := by
    intro e he
    by_cases heq : e = edge
    · rw [heq, hload]
      exact Node.rank_leaf l
    · rw [hrest e heq he]
      rfl
  have hrank : (Node.inner n).rank = c.rank := by
    rw [rank_eq_sum hn.sound, Finset.sum_eq_single edge' (fun e _ => hother e) (by simp), hload', hkind]
    rfl
  obtain ⟨lock, -, h⟩ := Except.exists_of_bind_eq_ok h
  rw [hfind] at h
  obtain ⟨change, hchange, h⟩ := Except.exists_of_bind_eq_ok h
  cases h
  cases hd : n.survivor key depth edge' c with
  | error e =>
    simp only [hd] at hchange
    cases hchange
  | ok d =>
    simp only [hd] at hchange
    cases hchange
    exact ⟨d, rfl, (rank_survivor hd).trans hrank.symm⟩

theorem Holds.balances_unlink (hn : n.Holds path stem) (hs : n.Shaped false stem)
    (hload : n.load edge = some (.leaf l)) {depth : Nat} (h : n.unlink key depth edge v id = .ok out) :
    out.Balances n := by
  unfold Branch.unlink at h
  split at h
  · rename_i hcollapse
    exact hn.balances_collapse hs hload hcollapse.1 hcollapse.2 h
  · cases edge with
    | terminal => exact hn.balances_eraseInPlace hload h
    | byte b =>
      dsimp only at h
      split at h
      · rename_i hshrink
        exact hn.balances_shrink hload hshrink h
      · exact hn.balances_eraseInPlace hload h

/-! ### The whole operations -/

/-- Storing a key balances. The recursion follows the descent. -/
theorem Valid.balances_insert {mode : InsertMode} {n : Inner V} {isRoot : Bool} {path : Key}
    {out : Outcome V} (hn : n.Valid isRoot path) (hpath : path <+: l.key)
    (h : n.insert l mode id path.length = .ok out) : out.Balances n := by
  obtain ⟨stem, hholds, hs⟩ := hn
  rw [insert_eq] at h
  obtain ⟨seen, -, h⟩ := Except.exists_of_bind_eq_ok h
  obtain ⟨stem', hstem, h⟩ := Except.exists_of_bind_eq_ok h
  rw [hholds.fullStem hs] at hstem
  cases hstem
  rw [if_neg (Nat.not_lt_of_le hpath.length_le)] at h
  split at h
  · exact balances_splitStem h
  · rename_i hge
    have hkey : path ++ stem <+: l.key := Key.prefix_of_commonLength hpath (Nat.le_of_not_lt hge)
    rw [← List.length_append] at h
    split at h
    · rename_i hload
      exact hholds.balances_addLeaf hload h
    · rename_i old hload
      split at h
      · exact hholds.balances_insertOver hload h
      · exact hholds.balances_splitLeaf hload h
    · rename_i m hload
      obtain ⟨b, hb⟩ := edge_of_load_inner hload
      rw [hb] at hload h
      have hkey' := Edge.prefix_of_ofKey_eq_byte hkey hb
      obtain ⟨below, hbelow, h⟩ := Except.exists_of_bind_eq_ok h
      rw [List.length_append, ← length_path_append_byte path stem b] at hbelow
      have hm := hholds.valid_of_load_inner hload
      exact hholds.balances_lift hload (Valid.balances_insert hm hkey' hbelow) h
termination_by l.key.length - path.length
decreasing_by
  simp only [List.length_append, List.length_singleton]
  have := hkey'.length_le
  simp only [List.length_append, List.length_singleton] at this
  omega

/-- Removing a key balances. The recursion follows the descent. -/
theorem Valid.balances_remove {n : Inner V} {isRoot : Bool} {path : Key} {out : Outcome V}
    (hn : n.Valid isRoot path) (h : n.remove key id isRoot path.length = .ok out) :
    out.Balances n := by
  obtain ⟨stem, hholds, hs⟩ := hn
  rw [Branch.remove, hholds.liveSnapshot] at h
  dsimp only at h
  split at h
  · have hdepth : path.length + n.stem.length = (path ++ stem).length := by
      rw [hholds.stem_length, List.length_append]
    split at h
    · cases h
      trivial
    · rename_i l hload
      rw [hdepth] at hload h
      split at h
      · split at h
        · exact hholds.balances_eraseInPlace hload h
        · rename_i hroot
          rw [Bool.not_eq_true] at hroot
          rw [hroot] at hs
          exact hholds.balances_unlink hs hload h
      · cases h
        trivial
    · rename_i m hload
      have hlt := lt_length_of_load hload
      split at h
      · cases h
      · rename_i below hbelow
        rw [hdepth] at hload h hbelow
        obtain ⟨b, hb⟩ := edge_of_load_inner hload
        rw [hb] at hload h
        rw [List.length_append, ← length_path_append_byte path stem b] at hbelow
        have hm := hholds.valid_of_load_inner hload
        exact hholds.balances_lift hload (Valid.balances_remove hm hbelow) h
  · cases h
    trivial
termination_by key.length - path.length
decreasing_by
  simp only [List.length_append, List.length_singleton]
  have := hholds.stem_length
  omega

end Branch

/-! ### Trees -/

namespace Tree

variable {t : Tree V} {key : Key} {w : Written V}

/-- What was counted makes up for what the rank has changed. -/
def Balanced (t : Tree V) (w : Written V) : Prop :=
  w.tree.shape.rank + shrinkings w.reshape = t.shape.rank + growths w.reshape

theorem balanced_settle {out : Outcome V} {size : Option V → Nat} (hout : out.Balances t.root)
    (h : t.settle size out = .ok w) : t.Balanced w := by
  cases out with
  | unchanged found =>
    cases h
    rfl
  | patched p =>
    obtain ⟨change, old, reshape, retired⟩ := p
    obtain ⟨c, hc, hrank⟩ := hout
    cases change with
    | inPlace root =>
      cases hc
      cases h
      exact hrank
    | relinked c => cases h
    | unlinked => cases h

theorem balanced_conclude {attempt : Except Fault (Written V)}
    (h : ∀ w, attempt = .ok w → t.Balanced w) : t.Balanced (t.conclude attempt) := by
  cases attempt with
  | error e => exact rfl
  | ok w => exact h w rfl

theorem Valid.balanced_tryInsert (ht : t.Valid) (key : Key) (value : V) (mode : InsertMode)
    (h : t.tryInsert key value mode = .ok w) : t.Balanced w := by
  obtain ⟨out, hout, h⟩ := Except.exists_of_bind_eq_ok h
  have hroot : t.root.Valid true [] := ht
  exact balanced_settle (hroot.balances_insert List.nil_prefix hout) h

theorem Valid.balanced_insert (ht : t.Valid) (key : Key) (value : V) :
    t.Balanced (t.insert key value) :=
  balanced_conclude fun _ => ht.balanced_tryInsert key value .upsert

theorem Valid.balanced_getOrInsert (ht : t.Valid) (key : Key) (make : Unit → V) :
    t.Balanced (t.getOrInsert key make).written := by
  unfold Tree.getOrInsert
  split
  · rfl
  · exact balanced_conclude fun _ => ht.balanced_tryInsert key (make ()) .ifAbsent

theorem Valid.balanced_remove (ht : t.Valid) (key : Key) : t.Balanced (t.remove key) := by
  refine balanced_conclude fun w h => ?_
  obtain ⟨out, hout, h⟩ := Except.exists_of_bind_eq_ok h
  exact balanced_settle (Branch.Valid.balances_remove ht hout) h

end Tree

/-! ### Scripts -/

/-- How often the tree was rearranged in this way. -/
def Counters.tally (c : Counters) : Reshape → Nat
  | .grow => c.grows
  | .shrink => c.shrinks
  | .collapse => c.collapses
  | .stemSplit => c.stemSplits

theorem Counters.tally_faulted (c : Counters) (fault : Option Fault) (r : Reshape) :
    (c.faulted fault).tally r = c.tally r := by
  cases fault <;> cases r <;> rfl

theorem Counters.tally_written (c : Counters) (w : Written V) (r : Reshape) :
    (c.written w).tally r = c.tally r + if w.reshape = some r then 1 else 0 := by
  unfold Counters.written
  rw [tally_faulted]
  cases hr : w.reshape with
  | none => simp [reshaped]
  | some r' => cases r' <;> cases r <;> rfl

namespace TreeScript

variable {st st' : State V}

namespace State

/-- The step rearranges the tree at most once, and that is what the counters and the rank tell. -/
def Rearranges (st st' : State V) : Prop :=
  ∃ r : Option Reshape,
    st'.tree.shape.rank + shrinkings r = st.tree.shape.rank + growths r ∧
    ∀ k, st'.counters.tally k = st.counters.tally k + if r = some k then 1 else 0

theorem rearranges_of_eq (htree : st'.tree = st.tree)
    (hcounters : ∀ k, st'.counters.tally k = st.counters.tally k) : st.Rearranges st' :=
  ⟨none, by rw [htree]; rfl, fun k => by simp [hcounters k]⟩

theorem rearranges_write {w : Written V} (h : st.tree.Balanced w) : st.Rearranges (st.write w) :=
  ⟨w.reshape, h, st.counters.tally_written w⟩

theorem rearranges_step (ht : st.tree.Valid) {op : Op V} (hop : op ≠ .resetCounters) :
    st.Rearranges (st.step op).1 := by
  cases op with
  | insert key value => exact rearranges_write (ht.balanced_insert key value)
  | getOrInsert key value => exact rearranges_write (ht.balanced_getOrInsert key _)
  | remove key => exact rearranges_write (ht.balanced_remove key)
  | resetCounters => exact absurd rfl hop
  | reverse name | next name count | inspectCursor name =>
    unfold step
    dsimp only
    cases st.cursors.find name <;> exact rearranges_of_eq rfl fun k => by cases k <;> rfl
  | get key => exact rearranges_of_eq rfl (st.counters.tally_faulted _)
  | scan _ _ _ _ | openCursor _ _ _ | close _ | size | shape | counters | inspect =>
    exact rearranges_of_eq rfl fun _ => rfl

end State

/-- The growths make up for the shrinkings and for the rank beyond that of an empty tree. -/
theorem exec_balanced {ops : List (Op V)} (hops : .resetCounters ∉ ops) (ht : st.tree.Valid)
    (hnumbered : st.tree.Numbered)
    (h : st.counters.grows + 3 = st.counters.shrinks + st.tree.shape.rank) :
    (exec st ops).counters.grows + 3 =
      (exec st ops).counters.shrinks + (exec st ops).tree.shape.rank := by
  induction ops generalizing st with
  | nil => exact h
  | cons op ops ih =>
    rw [List.mem_cons, not_or] at hops
    obtain ⟨hop, hops⟩ := hops
    obtain ⟨hvalid, hnumbered', -⟩ := State.step_evolves ht hnumbered op
    refine ih hops hvalid hnumbered' ?_
    obtain ⟨r, hrank, htally⟩ := State.rearranges_step ht (Ne.symm hop)
    have hgrows : (st.step op).1.counters.grows = st.counters.grows + growths r := by
      refine (htally .grow).trans (congrArg (st.counters.grows + ·) ?_)
      rcases r with _ | r
      · rfl
      · cases r <;> rfl
    have hshrinks : (st.step op).1.counters.shrinks = st.counters.shrinks + shrinkings r := by
      refine (htally .shrink).trans (congrArg (st.counters.shrinks + ·) ?_)
      rcases r with _ | r
      · rfl
      · cases r <;> rfl
    dsimp only
    omega

/-- The counters balance with the shape. After any script on a new tree that does not set the counters
    back, the growths less the shrinkings are what the reported shape has in nodes of the larger sizes,
    each counted as often as it is larger than the smallest, the root not counted. And whatever is done
    next, it raises at most one of the four counts of rearrangements, by one. -/
theorem growths_balance (ops : List (Op V)) (hops : .resetCounters ∉ ops) :
    let st := exec (start : State V) ops
    (∃ s c, (st.step .shape).2 = .shape s ∧ (st.step .counters).2 = .counters c ∧
      (c.grows : ℤ) - c.shrinks = s.node16 + 2 * s.node48 + 3 * (s.node256 - 1)) ∧
    ∀ op, op ≠ .resetCounters → ∃ r : Option Reshape, ∀ k,
      (st.step op).1.counters.tally k = st.counters.tally k + if r = some k then 1 else 0 := by
  intro st
  have hvalid : st.tree.Valid := (exec_start_numbered ops).1
  constructor
  · have hstart : (Tree.empty : Tree V).shape.rank = 3 := (Branch.rank_empty .node256 0 .empty).2
    have hbegin : (start : State V).counters.grows + 3 =
        (start : State V).counters.shrinks + (start : State V).tree.shape.rank := by
      rw [start, hstart]
      rfl
    have hbalanced : st.counters.grows + 3 = st.counters.shrinks + (st.tree.shape.node16 +
        2 * st.tree.shape.node48 + 3 * st.tree.shape.node256) :=
      exec_balanced hops Tree.valid_empty Tree.numbered_empty hbegin
    refine ⟨st.tree.shape, st.counters, rfl, rfl, ?_⟩
    omega
  · intro op hop
    obtain ⟨r, -, htally⟩ := State.rearranges_step hvalid hop
    exact ⟨r, htally⟩

/-- Five keys that share two bytes make a node grow, the next one leaves their stem half way, and a sixth
    joins the five. When two of the six are gone again, the node has shrunk. -/
theorem growths_balance_amid_shrinking :
    let ops : List (Op Nat) := [.insert [1, 2, 1] 0, .insert [1, 2, 2] 0, .insert [1, 2, 3] 0,
      .insert [1, 2, 4] 0, .insert [1, 2, 5] 0, .insert [1, 3] 0, .getOrInsert [1, 2, 6] 0,
      .remove [1, 2, 1], .remove [1, 2, 2]]
    let st := exec (start : State Nat) ops
    .resetCounters ∉ ops ∧
      st.counters = ⟨0, 1, 1, 0, 1, 0, 0⟩ ∧ st.tree.shape.node4 = 2 ∧
      (∃ s c, (st.step .shape).2 = .shape s ∧ (st.step .counters).2 = .counters c ∧
        (c.grows : ℤ) - c.shrinks = s.node16 + 2 * s.node48 + 3 * (s.node256 - 1)) ∧
      ∃ r : Option Reshape, ∀ k, (st.step (.remove [1, 3])).1.counters.tally k =
        st.counters.tally k + if r = some k then 1 else 0 := by
  intro ops st
  have hops : .resetCounters ∉ ops := by simp [ops]
  obtain ⟨hbalance, hstep⟩ := growths_balance ops hops
  exact ⟨hops, by decide +kernel, by decide +kernel, hbalance, hstep _ (by simp)⟩

end TreeScript

end RadixStore
