import Mathlib
import RadixStore.Cursor.Basic
import RadixStore.Tree.Insert

/-!
# Changing all children and all values

A body with every child changed answers every operation with the changed child, and a node with
every value below it changed is, apart from the values, the same node.
-/

namespace RadixStore

variable {V W X α β γ : Type}

/-- An entry with its child changed. -/
def onChild (f : α → β) (e : γ × α) : γ × β :=
  (e.1, f e.2)

@[simp] theorem onChild_fst (f : α → β) (e : γ × α) : (onChild f e).1 = e.1 := rfl

@[simp] theorem onChild_snd (f : α → β) (e : γ × α) : (onChild f e).2 = f e.2 := rfl

@[simp] theorem onChild_mk (f : α → β) (i : γ) (c : α) : onChild f (i, c) = (i, f c) := rfl

/-! ### Bodies -/

namespace Slots

/-- A row of places with everything in them changed. -/
def map (f : α → β) (s : Slots α) : Slots β :=
  List.map (Option.map f) s

variable (f : α → β) (s : Slots α)

@[simp] theorem map_empty (n : Nat) : (empty n : Slots α).map f = empty n := by
  simp [map, empty]

@[simp] theorem at?_map (i : Nat) : (s.map f).at? i = (s.at? i).map f := by
  unfold at? map
  rw [List.getElem?_map]
  rcases s[i]? with _ | _ | c <;> rfl

@[simp] theorem put_map (i : Nat) (c : α) : (s.map f).put i (f c) = (s.put i c).map f := by
  simp [map, put, List.map_set]

@[simp] theorem clear_map (i : Nat) : (s.map f).clear i = (s.clear i).map f := by
  simp [map, clear, List.map_set]

@[simp] theorem firstFree?_map : (s.map f).firstFree? = s.firstFree? := by
  simp [map, firstFree?, List.findIdx?_map, Function.comp_def]

end Slots

namespace Flat

/-- A flat body with every child changed. -/
def map (f : α → β) (x : Flat α) : Flat β :=
  ⟨x.entries.map (onChild f)⟩

variable (f : α → β) (x : Flat α) (b : UInt8)

@[simp] theorem map_empty : (empty : Flat α).map f = empty := rfl

@[simp] theorem count_map : (x.map f).count = x.count :=
  List.length_map _

@[simp] theorem toList_map : (x.map f).toList = x.toList.map (onChild f) := rfl

@[simp] theorem child?_map : (x.map f).child? b = (x.child? b).map f := by
  rw [child?, map, List.find?_map, Option.map_map]
  exact (Option.map_map f Prod.snd _).symm

@[simp] theorem childFrom_map : (x.map f).childFrom b = (x.childFrom b).map (onChild f) := by
  rw [childFrom, map, List.find?_map]
  rfl

@[simp] theorem childUpTo_map : (x.map f).childUpTo b = (x.childUpTo b).map (onChild f) := by
  rw [childUpTo, map, ← List.map_reverse, List.find?_map]
  rfl

theorem insertSorted_map (c : α) (es : List (UInt8 × α)) :
    insertSorted b (f c) (es.map (onChild f)) =
      (insertSorted b c es).map (onChild f) := by
  induction es with
  | nil => rfl
  | cons e es ih =>
    by_cases h : b < e.1
    · simp [insertSorted, h]
    · simp [insertSorted, h, ih]

@[simp] theorem insert_map (c : α) : (x.map f).insert b (f c) = (x.insert b c).map f :=
  congrArg Flat.mk (insertSorted_map f b c x.entries)

@[simp] theorem replace_map (c : α) : (x.map f).replace b (f c) = (x.replace b c).map f := by
  simp only [replace, map, List.map_map, Flat.mk.injEq]
  refine List.map_congr_left ?_
  intro e _
  by_cases h : e.1 = b <;> simp [h]

@[simp] theorem erase_map : (x.map f).erase b = (x.erase b).map f := by
  simp only [erase, map, List.filter_map]
  rfl

end Flat

namespace Indexed

/-- An indexed body with every child changed. -/
def map (f : α → β) (x : Indexed α) : Indexed β :=
  { x with slots := Slots.map f x.slots }

variable (f : α → β) (x : Indexed α) (b : UInt8)

@[simp] theorem map_empty : (empty : Indexed α).map f = empty := by
  simp [map, empty]

@[simp] theorem slot?_map : (x.map f).slot? b = x.slot? b := rfl

@[simp] theorem child?_map : (x.map f).child? b = (x.child? b).map f := by
  unfold child?
  rw [slot?_map]
  rcases x.slot? b with _ | s
  · rfl
  · exact Slots.at?_map f x.slots s

theorem entryAt?_map : entryAt? (x.map f) = Option.map (onChild f) ∘ x.entryAt? := by
  funext b
  simp [entryAt?, Function.comp_def]

@[simp] theorem toList_map : (x.map f).toList = x.toList.map (onChild f) := by
  simp [toList, List.map_filterMap, entryAt?_map]

@[simp] theorem childFrom_map : (x.map f).childFrom b = (x.childFrom b).map (onChild f) := by
  rw [childFrom, childFrom, List.map_findSome?, entryAt?_map]

@[simp] theorem childUpTo_map : (x.map f).childUpTo b = (x.childUpTo b).map (onChild f) := by
  rw [childUpTo, childUpTo, List.map_findSome?, entryAt?_map]

@[simp] theorem insert?_map (c : α) :
    (x.map f).insert? b (f c) = (x.insert? b c).map (Indexed.map f) := by
  simp [insert?, map, Function.comp_def]

@[simp] theorem replace_map (c : α) : (x.map f).replace b (f c) = (x.replace b c).map f := by
  unfold replace
  rw [slot?_map]
  rcases x.slot? b with _ | s <;> simp [map]

@[simp] theorem erase_map : (x.map f).erase b = (x.erase b).map f := by
  unfold erase
  rw [slot?_map]
  rcases x.slot? b with _ | s <;> simp [map]

end Indexed

namespace Direct

/-- A direct body with every child changed. -/
def map (f : α → β) (x : Direct α) : Direct β :=
  { x with slots := Slots.map f x.slots }

variable (f : α → β) (x : Direct α) (b : UInt8)

@[simp] theorem map_empty : (empty : Direct α).map f = empty := by
  simp [map, empty]

@[simp] theorem child?_map : (x.map f).child? b = (x.child? b).map f :=
  Slots.at?_map f x.slots b.toNat

theorem entryAt?_map : entryAt? (x.map f) = Option.map (onChild f) ∘ x.entryAt? := by
  funext b
  simp [entryAt?, Function.comp_def]

@[simp] theorem toList_map : (x.map f).toList = x.toList.map (onChild f) := by
  simp [toList, List.map_filterMap, entryAt?_map]

@[simp] theorem childFrom_map : (x.map f).childFrom b = (x.childFrom b).map (onChild f) := by
  rw [childFrom, childFrom, List.map_findSome?, entryAt?_map]

@[simp] theorem childUpTo_map : (x.map f).childUpTo b = (x.childUpTo b).map (onChild f) := by
  rw [childUpTo, childUpTo, List.map_findSome?, entryAt?_map]

@[simp] theorem insert_map (c : α) : (x.map f).insert b (f c) = (x.insert b c).map f := by
  simp [insert, map]

@[simp] theorem replace_map (c : α) : (x.map f).replace b (f c) = (x.replace b c).map f := by
  unfold replace
  rw [child?_map]
  rcases x.child? b with _ | d <;> simp [map]

@[simp] theorem erase_map : (x.map f).erase b = (x.erase b).map f := by
  unfold erase
  rw [child?_map]
  rcases x.child? b with _ | d <;> simp [map]

end Direct

namespace Body

/-- A body with every child changed. -/
def map (f : α → β) : Body α → Body β
  | .node4 x => .node4 (x.map f)
  | .node16 x => .node16 (x.map f)
  | .node48 x => .node48 (x.map f)
  | .node256 x => .node256 (x.map f)

variable (f : α → β) (x : Body α) (b : UInt8)

@[simp] theorem map_empty (k : Kind) : (empty k : Body α).map f = empty k := by
  cases k <;> simp [map, empty]

@[simp] theorem kind_map : (x.map f).kind = x.kind := by
  cases x <;> rfl

@[simp] theorem count_map : (x.map f).count = x.count := by
  cases x <;> simp [map, count, Indexed.map, Direct.map]

@[simp] theorem isFull_map : (x.map f).isFull = x.isFull := by
  simp [isFull]

@[simp] theorem toList_map : (x.map f).toList = x.toList.map (onChild f) := by
  cases x <;> simp [map, toList]

@[simp] theorem child?_map : (x.map f).child? b = (x.child? b).map f := by
  cases x <;> simp [map, child?]

@[simp] theorem childFrom_map : (x.map f).childFrom b = (x.childFrom b).map (onChild f) := by
  cases x <;> simp [map, childFrom]

@[simp] theorem childUpTo_map : (x.map f).childUpTo b = (x.childUpTo b).map (onChild f) := by
  cases x <;> simp [map, childUpTo]

@[simp] theorem insert?_map (c : α) :
    (x.map f).insert? b (f c) = (x.insert? b c).map (Body.map f) := by
  cases x with
  | node4 x =>
    by_cases h : x.count < Kind.node4.capacity <;> simp [map, insert?, h]
  | node16 x =>
    by_cases h : x.count < Kind.node16.capacity <;> simp [map, insert?, h]
  | node48 x => simp [map, insert?, Function.comp_def]
  | node256 x => simp [map, insert?]

@[simp] theorem replace_map (c : α) : (x.map f).replace b (f c) = (x.replace b c).map f := by
  cases x <;> simp [map, replace]

@[simp] theorem erase_map : (x.map f).erase b = (x.erase b).map f := by
  cases x <;> simp [map, erase]

@[simp] theorem insertAll?_map (es : List (UInt8 × α)) :
    (x.map f).insertAll? (es.map (onChild f)) = (x.insertAll? es).map (Body.map f) := by
  unfold insertAll?
  induction es generalizing x with
  | nil => rfl
  | cons e es ih =>
    simp only [List.map_cons, List.foldlM_cons, onChild_fst, onChild_snd, insert?_map]
    rcases x.insert? e.1 e.2 with _ | y
    · rfl
    · exact ih y

end Body

/-! ### Nodes -/

/-- A leaf with its value changed. -/
def Leaf.map (g : V → W) (l : Leaf V) : Leaf W :=
  ⟨l.key, g l.value⟩

/-- A node with every value below it changed. -/
def Node.map (g : V → W) : Node V → Node W
  | .leaf l => .leaf (l.map g)
  | .inner ⟨id, lock, stem, terminal, .node4 ⟨es⟩⟩ =>
    .inner ⟨id, lock, stem, terminal.map (Leaf.map g), .node4 ⟨es.map fun e => (e.1, e.2.map g)⟩⟩
  | .inner ⟨id, lock, stem, terminal, .node16 ⟨es⟩⟩ =>
    .inner ⟨id, lock, stem, terminal.map (Leaf.map g), .node16 ⟨es.map fun e => (e.1, e.2.map g)⟩⟩
  | .inner ⟨id, lock, stem, terminal, .node48 ⟨count, index, slots⟩⟩ =>
    .inner ⟨id, lock, stem, terminal.map (Leaf.map g),
      .node48 ⟨count, index, slots.map fun s => s.attach.map fun c => c.1.map g⟩⟩
  | .inner ⟨id, lock, stem, terminal, .node256 ⟨count, slots⟩⟩ =>
    .inner ⟨id, lock, stem, terminal.map (Leaf.map g),
      .node256 ⟨count, slots.map fun s => s.attach.map fun c => c.1.map g⟩⟩
decreasing_by
  · have hlt := Flat.sizeOf_lt_of_mem (f := ⟨es⟩) ‹e ∈ es›
    simp only [Node.inner.sizeOf_spec, Branch.mk.sizeOf_spec, Body.node4.sizeOf_spec]
    omega
  · have hlt := Flat.sizeOf_lt_of_mem (f := ⟨es⟩) ‹e ∈ es›
    simp only [Node.inner.sizeOf_spec, Branch.mk.sizeOf_spec, Body.node16.sizeOf_spec]
    omega
  · have hlt := List.sizeOf_lt_of_mem (Option.mem_def.1 c.2 ▸ ‹s ∈ slots›)
    simp only [Node.inner.sizeOf_spec, Branch.mk.sizeOf_spec, Body.node48.sizeOf_spec,
      Indexed.mk.sizeOf_spec, Option.some.sizeOf_spec] at hlt ⊢
    omega
  · have hlt := List.sizeOf_lt_of_mem (Option.mem_def.1 c.2 ▸ ‹s ∈ slots›)
    simp only [Node.inner.sizeOf_spec, Branch.mk.sizeOf_spec, Body.node256.sizeOf_spec,
      Direct.mk.sizeOf_spec, Option.some.sizeOf_spec] at hlt ⊢
    omega

/-- An inner node with every value below it changed. -/
def Branch.map (g : V → W) (n : Inner V) : Inner W :=
  ⟨n.id, n.lock, n.stem, n.terminal.map (Leaf.map g), n.body.map (Node.map g)⟩

@[simp] theorem Leaf.map_comp (g : V → W) (h : W → X) :
    Leaf.map h ∘ Leaf.map g = Leaf.map (h ∘ g) := rfl

namespace Node

variable (g : V → W)

@[simp] theorem map_leaf (l : Leaf V) : (leaf l).map g = leaf (l.map g) := by
  rw [Node.map]

@[simp] theorem map_inner (n : Inner V) : (inner n).map g = inner (n.map g) := by
  obtain ⟨id, lock, stem, terminal, x | x | x | x⟩ := n
  · rw [Node.map]
    rfl
  · rw [Node.map]
    rfl
  · rw [Node.map]
    simp [Branch.map, Body.map, Indexed.map, Slots.map]
  · rw [Node.map]
    simp [Branch.map, Body.map, Direct.map, Slots.map]

theorem map_map (h : W → X) (c : Node V) : (c.map g).map h = c.map (h ∘ g) := by
  have hslots : ∀ slots : List (Option (Node V)),
      (∀ s ∈ slots, ∀ c : { x // s = some x }, (c.1.map g).map h = c.1.map (h ∘ g)) →
      Slots.map (map h) (Slots.map (map g) slots) = Slots.map (map (h ∘ g)) slots := by
    intro slots ih
    simp only [Slots.map, List.map_map]
    refine List.map_congr_left ?_
    rintro (_ | c) hs
    · rfl
    · exact congrArg some (ih _ hs ⟨c, rfl⟩)
  induction c using Node.map.induct with
  | case1 l => simp [Leaf.map]
  | case2 id lock stem terminal es ih | case3 id lock stem terminal es ih =>
    simp only [map_inner, Branch.map, Body.map, Flat.map, Option.map_map, List.map_map,
      Leaf.map_comp]
    congr 4
    exact List.map_congr_left fun e he => Prod.ext rfl (ih e he)
  | case4 id lock stem terminal count index slots ih =>
    simp [Branch.map, Body.map, Indexed.map, hslots slots ih]
  | case5 id lock stem terminal count slots ih =>
    simp [Branch.map, Body.map, Direct.map, hslots slots ih]

end Node

namespace Branch

variable (g : V → W) (n : Inner V)

@[simp] theorem id_map : (n.map g).id = n.id := rfl

@[simp] theorem lock_map : (n.map g).lock = n.lock := rfl

@[simp] theorem stem_map : (n.map g).stem = n.stem := rfl

@[simp] theorem terminal_map : (n.map g).terminal = n.terminal.map (Leaf.map g) := rfl

@[simp] theorem body_map : (n.map g).body = n.body.map (Node.map g) := rfl

@[simp] theorem kind_map : (n.map g).kind = n.kind := by
  simp [kind]

@[simp] theorem isFull_map : (n.map g).isFull = n.isFull := by
  simp [isFull]

@[simp] theorem map_empty (kind : Kind) (id : NodeId) (stem : Stem) :
    (empty kind id stem : Inner V).map g = empty kind id stem := by
  simp [map, empty]

@[simp] theorem load_map (edge : Edge) : (n.map g).load edge = (n.load edge).map (Node.map g) := by
  cases edge <;> simp [load, Function.comp_def]

/-! ### Going along the entries -/

theorem childAfter_map (pos : Int) :
    (n.map g).childAfter pos = (n.childAfter pos).map (onChild (Node.map g)) := by
  by_cases h : pos ≤ 255 <;> simp [childAfter, h, Function.comp_def, atPosition]

theorem childBefore_map (pos : Int) :
    (n.map g).childBefore pos = (n.childBefore pos).map (onChild (Node.map g)) := by
  by_cases h : 2 ≤ pos <;> simp [childBefore, h, Function.comp_def, atPosition]

@[simp] theorem nextEntry_map (pos : Int) :
    (n.map g).nextEntry pos = (n.nextEntry pos).map (onChild (Node.map g)) := by
  unfold nextEntry
  rw [terminal_map, childAfter_map]
  rcases n.terminal with _ | l
  · rfl
  · by_cases h : pos < 0 <;> simp [h]

@[simp] theorem prevEntry_map (pos : Int) :
    (n.map g).prevEntry pos = (n.prevEntry pos).map (onChild (Node.map g)) := by
  unfold prevEntry
  rw [terminal_map, childBefore_map]
  rcases n.childBefore pos with _ | e
  · rcases n.terminal with _ | l
    · rfl
    · by_cases h : 0 < pos <;> simp [h]
  · rfl

@[simp] theorem entryPast_map (dir : Direction) (pos : Int) :
    (n.map g).entryPast dir pos = (n.entryPast dir pos).map (onChild (Node.map g)) := by
  cases dir <;> simp [entryPast]

theorem minLeaf?_eq (n : Inner V) : n.minLeaf? = match n.nextEntry beforeAll with
    | none => none
    | some (_, .leaf l) => some l
    | some (_, .inner m) => m.minLeaf? := by
  rw [minLeaf?]
  split <;> rename_i h <;> simp only [h]

@[simp] theorem minLeaf?_map : (n.map g).minLeaf? = n.minLeaf?.map (Leaf.map g) := by
  induction n using minLeaf?.induct with
  | case1 n hnext =>
    rw [minLeaf?_eq, minLeaf?_eq n]
    simp [hnext]
  | case2 n p l hnext =>
    rw [minLeaf?_eq, minLeaf?_eq n]
    simp [hnext]
  | case3 n p m hnext ih =>
    rw [minLeaf?_eq, minLeaf?_eq n]
    simp [hnext, ih]

@[simp] theorem fullStem_map (depth : Nat) : (n.map g).fullStem depth = n.fullStem depth := by
  unfold fullStem
  rw [minLeaf?_map]
  rcases n.minLeaf? with _ | l <;> rfl

/-! ### Changing the children -/

theorem insertChild_map (b : UInt8) (c : Node V) :
    (n.map g).insertChild b (c.map g) = map g <$> n.insertChild b c := by
  unfold insertChild
  rw [body_map, Body.insert?_map]
  rcases n.body.insert? b c with _ | body <;> rfl

@[simp] theorem insertChild_leaf_map (b : UInt8) (l : Leaf V) :
    (n.map g).insertChild b (.leaf (l.map g)) = map g <$> n.insertChild b (.leaf l) := by
  rw [← Node.map_leaf, insertChild_map]

@[simp] theorem insertChild_inner_map (b : UInt8) (m : Inner V) :
    (n.map g).insertChild b (.inner (m.map g)) = map g <$> n.insertChild b (.inner m) := by
  rw [← Node.map_inner, insertChild_map]

@[simp] theorem place_map (edge : Edge) (l : Leaf V) :
    (n.map g).place edge (l.map g) = map g <$> n.place edge l := by
  cases edge with
  | terminal => rfl
  | byte b => exact insertChild_leaf_map g n b l

theorem replace_map (edge : Edge) (c : Node V) :
    (n.map g).replace edge (c.map g) = (n.replace edge c).map g := by
  rcases edge with _ | b
  · rcases c with l | m <;> simp [replace, map]
  · simp [replace, map]

@[simp] theorem replace_leaf_map (edge : Edge) (l : Leaf V) :
    (n.map g).replace edge (.leaf (l.map g)) = (n.replace edge (.leaf l)).map g := by
  rw [← Node.map_leaf, replace_map]

@[simp] theorem replace_inner_map (edge : Edge) (m : Inner V) :
    (n.map g).replace edge (.inner (m.map g)) = (n.replace edge (.inner m)).map g := by
  rw [← Node.map_inner, replace_map]

@[simp] theorem erase_map (edge : Edge) : (n.map g).erase edge = (n.erase edge).map g := by
  cases edge <;> simp [erase, map]

theorem rebuild_map (kind : Kind) (skip : Option UInt8) (id : NodeId) :
    (n.map g).rebuild kind skip id = map g <$> n.rebuild kind skip id := by
  have hchildren : (n.map g).body.toList.filter (fun e => some e.1 ≠ skip) =
      (n.body.toList.filter fun e => some e.1 ≠ skip).map (onChild (Node.map g)) := by
    rw [body_map, Body.toList_map, List.filter_map]
    rfl
  unfold rebuild
  rw [hchildren, ← Body.map_empty (Node.map g) kind, Body.insertAll?_map]
  rcases (Body.empty kind).insertAll? _ with _ | body <;> rfl

end Branch

end RadixStore
