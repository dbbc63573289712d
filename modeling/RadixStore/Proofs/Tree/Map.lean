import Mathlib
import RadixStore.Proofs.Node.Map
import RadixStore.Proofs.Tree.Contents
import RadixStore.Tree.Shape

/-!
# Changing all values of a tree

No operation looks at the values that a tree stores. So a tree with all values changed answers as
the tree does, with the changed values, and comes to the same tree with all values changed. What a
change to one value comes to depends only on what it makes of that value.
-/

namespace RadixStore

variable {V W X : Type}

/-- A tree with all values changed. -/
def Tree.map (g : V → W) (t : Tree V) : Tree W :=
  ⟨t.root.map g, t.size, t.nextId⟩

/-! ### Looking a key up -/

namespace Branch

theorem search_eq (key : Key) (n : Inner V) (depth : Nat) :
    n.search key depth =
      match n.lock.liveSnapshot with
      | .error e => .error e
      | .ok _ =>
        if n.stem.admits key depth then
          match n.load (.ofKey key (depth + n.stem.length)) with
          | none => .ok none
          | some (.leaf l) => .ok (if l.key = key then some l.value else none)
          | some (.inner m) => m.search key (depth + n.stem.length + 1)
        else .ok none := by
  rw [search]
  rcases n.lock.liveSnapshot with e | seen
  · rfl
  · by_cases hadm : n.stem.admits key depth = true
    · simp only [hadm, if_true]
      split <;> rename_i hload <;> simp only [hload]
    · simp only [hadm, if_false, Bool.false_eq_true]

theorem search_map (g : V → W) (key : Key) (n : Inner V) (depth : Nat) :
    (n.map g).search key depth = (n.search key depth).map (Option.map g) := by
  induction n, depth using search.induct key with
  | case1 n depth e hsnap =>
    rw [search_eq, search_eq key n]
    simp [hsnap, Except.map]
  | case2 n depth v hsnap hadm hload =>
    rw [search_eq, search_eq key n]
    simp [hsnap, hadm, hload, Except.map]
  | case3 n depth v hsnap hadm l hload =>
    rw [search_eq, search_eq key n]
    by_cases h : l.key = key <;> simp [hsnap, hadm, hload, Leaf.map, h, Except.map]
  | case4 n depth v hsnap hadm m hload ih =>
    rw [search_eq, search_eq key n]
    simp [hsnap, hadm, hload, ih]
  | case5 n depth v hsnap hadm =>
    rw [search_eq, search_eq key n]
    simp [hsnap, hadm, Except.map]

end Branch

namespace Tree

variable (g : V → W) (t : Tree V)

@[simp] theorem size_map : (t.map g).size = t.size := rfl

theorem get?_map (key : Key) : (t.map g).get? key = (t.get? key).map g := by
  unfold get? trySearch
  rw [show (t.map g).root.search key 0 = _ from Branch.search_map g key t.root 0]
  rcases t.root.search key 0 with e | found <;> rfl

theorem map_map (h : W → X) : (t.map g).map h = t.map (h ∘ g) := by
  have hroot := Node.map_map g h (.inner t.root)
  simp only [Node.map_inner, Node.inner.injEq] at hroot
  simp [Tree.map, hroot]

end Tree

/-! ### Changing one value -/

namespace Branch

theorem update_eq (key : Key) (f : V → V) (n : Inner V) (depth : Nat) :
    n.update key f depth =
      match n.load (.ofKey key (depth + n.stem.length)) with
      | none => n
      | some (.leaf l) =>
        if l.key = key then n.replace (.ofKey key (depth + n.stem.length)) (.leaf (l.update f))
        else n
      | some (.inner m) =>
        n.replace (.ofKey key (depth + n.stem.length))
          (.inner (m.update key f (depth + n.stem.length + 1))) := by
  rw [update]
  split <;> rename_i hload <;> simp only [hload]

/-- The change may be made before or after all values are changed. -/
theorem update_map {g : V → W} {f : V → V} {f' : W → W} (hf : ∀ v, f' (g v) = g (f v)) (key : Key)
    (n : Inner V) (depth : Nat) :
    (n.map g).update key f' depth = (n.update key f depth).map g := by
  induction n, depth using update.induct key with
  | case1 n depth hload =>
    rw [update_eq, update_eq key f n]
    simp [hload]
  | case2 n depth l hload hkey =>
    rw [update_eq, update_eq key f n]
    have hkey' : (l.map g).key = key := hkey
    have hleaf : (l.map g).update f' = (l.update f).map g := congrArg (Leaf.mk l.key) (hf l.value)
    simp [hload, hkey, hkey', hleaf]
  | case3 n depth l hload hkey =>
    rw [update_eq, update_eq key f n]
    have hkey' : ¬ (l.map g).key = key := hkey
    simp [hload, hkey, hkey']
  | case4 n depth m hload ih =>
    rw [update_eq, update_eq key f n]
    simp [hload, ih]

/-- Where a key is found, the descent goes on below the child on its edge. -/
theorem search_of_load {key : Key} {n : Inner V} {depth : Nat} {v : V}
    (h : n.search key depth = .ok (some v)) {c : Node V}
    (hload : n.load (.ofKey key (depth + n.stem.length)) = some c) :
    match c with
    | .leaf l => l.key = key ∧ l.value = v
    | .inner m => m.search key (depth + n.stem.length + 1) = .ok (some v) := by
  rw [search_eq] at h
  split at h
  · cases h
  · split at h
    · cases c with
      | leaf l => simpa [hload] using h
      | inner m => simpa [hload] using h
    · cases h

/-- What a change comes to depends only on what it makes of the value that is there. -/
theorem update_congr {f f' : V → V} {key : Key} {v : V} (hf : f v = f' v) (n : Inner V)
    (depth : Nat) (h : n.search key depth = .ok (some v)) :
    n.update key f depth = n.update key f' depth := by
  induction n, depth using update.induct key with
  | case1 n depth hload => rw [update_eq, update_eq key f' n, hload]
  | case2 n depth l hload hkey =>
    obtain ⟨-, rfl⟩ := search_of_load h hload
    rw [update_eq, update_eq key f' n]
    simp [hload, Leaf.update, hf]
  | case3 n depth l hload hkey =>
    rw [update_eq, update_eq key f' n]
    simp [hload, hkey]
  | case4 n depth m hload ih =>
    have hm := ih (search_of_load h hload)
    rw [update_eq, update_eq key f' n]
    simp [hload, hm]

theorem replace_self {n : Inner V} (h : n.body.Sound) {edge : Edge} {c : Node V}
    (hload : n.load edge = some c) : n.replace edge c = n := by
  cases edge with
  | terminal =>
    obtain ⟨l, hl, rfl⟩ := Option.map_eq_some_iff.1 hload
    simp [replace, ← hl]
  | byte b =>
    have hsame : ∀ d, n.body.child? b = some d → d = c := fun d hd =>
      Option.some.inj (hd.symm.trans hload)
    simp [replace, h.replace_eq_self hsame]

theorem Valid.update_self (key : Key) (n : Inner V) (depth : Nat) {isRoot : Bool} {path : Key}
    (h : n.Valid isRoot path) : n.update key (fun v => v) depth = n := by
  induction n, depth using update.induct key generalizing isRoot path with
  | case1 n depth hload =>
    rw [update_eq]
    simp [hload]
  | case2 n depth l hload hkey =>
    obtain ⟨stem, hn, -⟩ := h
    rw [update_eq]
    simp only [hload, hkey, if_true]
    exact replace_self hn.sound hload
  | case3 n depth l hload hkey =>
    rw [update_eq]
    simp [hload, hkey]
  | case4 n depth m hload ih =>
    obtain ⟨stem, hn, -⟩ := h
    obtain ⟨b, hb⟩ := edge_of_load_inner hload
    have hm := ih (hn.valid_of_load_inner (hb ▸ hload))
    rw [update_eq]
    simp [hload, hm, replace_self hn.sound hload]

end Branch

namespace Tree

variable {t : Tree V} {key : Key}

theorem update_map {g : V → W} {f : V → V} {f' : W → W} (hf : ∀ v, f' (g v) = g (f v)) (t : Tree V)
    (key : Key) : (t.map g).update key f' = (t.update key f).map g := by
  unfold Tree.map Tree.update
  rw [Branch.update_map hf]

theorem search_of_get? {v : V} (h : t.get? key = some v) : t.root.search key 0 = .ok (some v) := by
  unfold get? trySearch at h
  split at h
  · rename_i found hfound
    rw [hfound, h]
  · cases h

theorem update_congr {f f' : V → V} {v : V} (h : t.get? key = some v) (hf : f v = f' v) :
    t.update key f = t.update key f' := by
  unfold Tree.update
  rw [Branch.update_congr hf t.root 0 (search_of_get? h)]

theorem Valid.update_self (ht : t.Valid) {v : V} (h : t.get? key = some v) {f : V → V}
    (hf : f v = v) : t.update key f = t := by
  have hcongr : t.update key f = t.update key fun v => v := update_congr h hf
  rw [hcongr]
  unfold Tree.update
  rw [Branch.Valid.update_self key t.root 0 ht]

end Tree

/-! ### Storing a key -/

/-- A change with all values below the node changed. -/
def Change.map (g : V → W) : Change V → Change W
  | .inPlace n => .inPlace (n.map g)
  | .relinked c => .relinked (c.map g)
  | .unlinked => .unlinked

def Patch.map (g : V → W) (p : Patch V) : Patch W :=
  ⟨p.change.map g, p.old.map g, p.reshape, p.retired⟩

def Outcome.map (g : V → W) : Outcome V → Outcome W
  | .unchanged found => .unchanged (found.map g)
  | .patched p => .patched (p.map g)

namespace Branch

variable (g : V → W) (n : Inner V) (edge : Edge)

theorem addLeaf_map (l : Leaf V) (id : NodeId) :
    (n.map g).addLeaf edge (l.map g) id = Outcome.map g <$> n.addLeaf edge l id := by
  rcases edge with _ | b
  · simp [addLeaf]
    rfl
  · rcases hfull : n.isFull with _ | _
    · simp [addLeaf, hfull]
      rfl
    · simp [addLeaf, hfull, rebuild_map, Outcome.map, Patch.map, Change.map]

theorem insertOver_map (l : Leaf V) (value : V) (mode : InsertMode) :
    (n.map g).insertOver edge (l.map g) (g value) mode =
      Outcome.map g <$> n.insertOver edge l value mode := by
  cases mode with
  | ifAbsent => rfl
  | upsert =>
    have hleaf : (⟨(l.map g).key, g value⟩ : Leaf W) = (⟨l.key, value⟩ : Leaf V).map g := rfl
    simp [insertOver, hleaf]
    rfl

theorem splitLeaf_map (old l : Leaf V) (depth : Nat) (id : NodeId) :
    (n.map g).splitLeaf edge (old.map g) (l.map g) depth id =
      Outcome.map g <$> n.splitLeaf edge old l depth id := by
  have hempty := fun stem => (map_empty g .node4 id stem).symm
  have hkey : (l.map g).key = l.key := rfl
  have hold : (old.map g).key = old.key := rfl
  unfold splitLeaf
  rw [hkey, hold]
  split
  · simp [hempty, -map_empty]
    rfl
  · rfl

theorem splitStem_map (l : Leaf V) (depth common : Nat) (stem : Key) (id : NodeId) :
    (n.map g).splitStem (l.map g) depth common stem id =
      Outcome.map g <$> n.splitStem l depth common stem id := by
  have hempty := fun stem => (map_empty g .node4 id stem).symm
  have hkey : (l.map g).key = l.key := rfl
  unfold splitStem
  rcases stem.drop common with _ | ⟨b, rest⟩
  · rfl
  · have hcut : ∀ (lock : VersionLock) (stem : Stem),
        ({ n.map g with lock := lock, stem := stem } : Inner W) =
          ({ n with lock := lock, stem := stem } : Inner V).map g := fun _ _ => rfl
    simp only [hempty, hkey, place_map, hcut, insertChild_inner_map, lock_map, map_bind,
      bind_map_left]
    simp [Outcome.map, Patch.map, Change.map]

theorem absorb_map (change : Change V) :
    (n.map g).absorb edge (change.map g) = map g <$> n.absorb edge change := by
  cases change with
  | inPlace m => exact congrArg Except.ok (replace_inner_map g n edge m)
  | relinked c =>
    have hreplace := replace_map g n edge c
    simp only [absorb, Change.map, lock_map, hreplace]
    rcases n.lock.writeSection with e | lock <;> rfl
  | unlinked =>
    simp only [absorb, Change.map, lock_map, erase_map]
    rcases n.lock.writeSection with e | lock <;> rfl

theorem lift_map (o : Outcome V) :
    (n.map g).lift edge (o.map g) = Outcome.map g <$> n.lift edge o := by
  cases o with
  | unchanged found => rfl
  | patched p =>
    simp only [lift, Outcome.map, Patch.map, absorb_map]
    rcases n.absorb edge p.change with e | m <;> rfl

theorem insert_eq (l : Leaf V) (mode : InsertMode) (id : NodeId) (n : Inner V) (depth : Nat) :
    insert l mode id n depth =
      n.lock.liveSnapshot >>= fun _ => n.fullStem depth >>= fun stem =>
      if l.key.length < depth then .error .shortKey
      else if Key.commonLength stem (l.key.drop depth) < stem.length then
        n.splitStem l depth (Key.commonLength stem (l.key.drop depth)) stem id
      else
        match n.load (.ofKey l.key (depth + stem.length)) with
        | none => n.addLeaf (.ofKey l.key (depth + stem.length)) l id
        | some (.leaf old) =>
          if old.key = l.key then n.insertOver (.ofKey l.key (depth + stem.length)) old l.value mode
          else n.splitLeaf (.ofKey l.key (depth + stem.length)) old l (depth + stem.length + 1) id
        | some (.inner m) =>
          insert l mode id m (depth + stem.length + 1) >>=
            n.lift (.ofKey l.key (depth + stem.length)) := by
  rw [insert]
  rcases n.lock.liveSnapshot with e | snap
  · rfl
  · rcases n.fullStem depth with e | stem
    · rfl
    · show (if _ then _ else if _ then _ else _) = (if _ then _ else if _ then _ else _)
      congr 2
      split <;> rename_i hload <;> simp only [hload]
      rcases insert l mode id _ _ with e | o <;> rfl

theorem insert_map (l : Leaf V) (mode : InsertMode) (id : NodeId) (n : Inner V) (depth : Nat) :
    insert (l.map g) mode id (n.map g) depth = Outcome.map g <$> insert l mode id n depth := by
  have hkey : (l.map g).key = l.key := rfl
  rw [insert_eq, insert_eq l mode id n, lock_map, fullStem_map, hkey]
  rcases n.lock.liveSnapshot with e | snap
  · rfl
  · rcases n.fullStem depth with e | stem
    · rfl
    · show (if _ then _ else if _ then _ else _) =
        Outcome.map g <$> (if _ then _ else if _ then _ else _)
      split
      · rfl
      · split
        · exact splitStem_map g n l depth _ stem id
        · rw [load_map]
          rcases hload : n.load _ with _ | old | m
          · exact addLeaf_map g n _ l id
          · have hold : (old.map g).key = old.key := rfl
            simp only [Option.map_some, Node.map_leaf, hold]
            split
            · exact insertOver_map g n _ old l.value mode
            · exact splitLeaf_map g n _ old l _ id
          · have hm := insert_map l mode id m (depth + stem.length + 1)
            simp only [Option.map_some, Node.map_inner, hm]
            rcases insert l mode id m _ with e | o
            · rfl
            · exact lift_map g n _ o
termination_by l.key.length - depth
decreasing_by
  have := lt_length_of_load hload
  omega

end Branch

/-- What an operation leaves behind, with all values changed. -/
def Written.map (g : V → W) (w : Written V) : Written W :=
  ⟨w.tree.map g, w.old.map g, w.reshape, w.retired, w.fault⟩

namespace Tree

variable (g : V → W) (t : Tree V)

theorem settle_map {size : Option V → Nat} {size' : Option W → Nat}
    (hsize : ∀ old, size' (old.map g) = size old) (o : Outcome V) :
    (t.map g).settle size' (o.map g) = Written.map g <$> t.settle size o := by
  rcases o with found | ⟨root | c | _, old, reshape, retired⟩
  · rfl
  · simp [settle, Outcome.map, Patch.map, Change.map, Written.map, Tree.map, hsize]
  · rfl
  · rfl

theorem conclude_map (w : Except Fault (Written V)) :
    (t.map g).conclude (Written.map g <$> w) = (t.conclude w).map g := by
  rcases w with e | w <;> rfl

theorem tryInsert_map (key : Key) (value : V) (mode : InsertMode) :
    (t.map g).tryInsert key (g value) mode = Written.map g <$> t.tryInsert key value mode := by
  have hinsert := Branch.insert_map g ⟨key, value⟩ mode t.nextId t.root 0
  have hsize : ∀ old, (t.map g).sizeAfterInsert (old.map g) = t.sizeAfterInsert old := by
    rintro (_ | old) <;> rfl
  show (Branch.insert _ mode t.nextId (t.root.map g) 0 >>= _) = _ <$> (Branch.insert _ _ _ _ _ >>= _)
  rw [show (⟨key, g value⟩ : Leaf W) = (⟨key, value⟩ : Leaf V).map g from rfl, hinsert]
  rcases Branch.insert ⟨key, value⟩ mode t.nextId t.root 0 with e | o
  · rfl
  · exact settle_map g t hsize o

theorem getOrInsert_map (key : Key) (make : Unit → V) (make' : Unit → W)
    (hmake : make' () = g (make ())) :
    ((t.map g).getOrInsert key make').value = g (t.getOrInsert key make).value ∧
      ((t.map g).getOrInsert key make').written = (t.getOrInsert key make).written.map g := by
  unfold getOrInsert
  rw [get?_map]
  rcases t.get? key with _ | found
  · dsimp only [Option.map_none]
    rw [hmake, tryInsert_map, conclude_map]
    refine ⟨?_, rfl⟩
    show Option.getD (Option.map g _) _ = _
    rcases (t.conclude (t.tryInsert key (make ()) .ifAbsent)).old with _ | old <;> rfl
  · exact ⟨rfl, rfl⟩

end Tree

/-! ### Listing the leaves -/

theorem Node.leaves_map (g : V → W) (c : Node V) : (c.map g).leaves = c.leaves.map (Leaf.map g) := by
  cases c with
  | leaf l =>
    rw [Node.map_leaf, Node.leaves, Node.leaves]
    rfl
  | inner n =>
    have hchildren : ∀ e ∈ n.body.toList, (e.2.map g).leaves = e.2.leaves.map (Leaf.map g) := by
      intro e he
      have hlt := Body.sizeOf_lt_of_mem he
      exact Node.leaves_map g e.2
    have hterminal : (n.terminal.map (Leaf.map g)).toList = n.terminal.toList.map (Leaf.map g) := by
      cases n.terminal <;> rfl
    rw [Node.map_inner, Node.leaves_inner, Node.leaves_inner, Branch.terminal_map, Branch.body_map,
      Body.toList_map, hterminal, List.map_append, List.map_flatMap, List.flatMap_map]
    congr 1
    exact List.flatMap_congr hchildren
termination_by sizeOf c
decreasing_by
  obtain ⟨id, lock, stem, terminal, body⟩ := n
  simp only [Node.inner.sizeOf_spec, Branch.mk.sizeOf_spec] at hlt ⊢
  omega

theorem Tree.leaves_map (g : V → W) (t : Tree V) : (t.map g).leaves = t.leaves.map (Leaf.map g) := by
  have h := Node.leaves_map g (.inner t.root)
  rw [Node.map_inner] at h
  exact h

end RadixStore
