import Mathlib
import RadixStore.Proofs.Node.Walk

/-!
# Nodes as tables

An inner node of any kind is a table: a finite map from bytes to children, and a terminal. Adding,
exchanging and taking out a child change the table and nothing else, whatever was done to the node
before, and the node answers as the table does: what hangs off an edge, how many bytes have a child,
which entry is the next one past a position, and in which order a walk meets them. A node that is rebuilt
in another kind has the same table, less the byte that is left out.
-/

namespace RadixStore

variable {V : Type}

/-! ### Tables -/

/-- The leaf whose key ends at a node, and the children under the bytes that go on. -/
structure Table (V : Type) where
  terminal : Option (Leaf V)
  children : Finmap fun _ : UInt8 => Node V

/-- A change to one edge of a node. -/
inductive Table.Op (V : Type) where
  /-- Add a child under a byte that has none. -/
  | insert (b : UInt8) (c : Node V)
  /-- Exchange the child on an edge. -/
  | replace (edge : Edge) (c : Node V)
  /-- Take the child on an edge out. -/
  | erase (edge : Edge)

namespace Table

def empty : Table V := ⟨none, ∅⟩

/-- What hangs off an edge. -/
def load (m : Table V) : Edge → Option (Node V)
  | .terminal => m.terminal.map .leaf
  | .byte b => m.children.lookup b

/-- How many bytes have a child. -/
def count (m : Table V) : Nat :=
  m.children.keys.card

/-- The terminal, then the children in the order of their bytes. -/
def entries (m : Table V) : List (Edge × Node V) :=
  (Edge.terminal :: allBytes.map .byte).filterMap fun e => (m.load e).map fun c => (e, c)

/-- The table less what a byte maps to. -/
def without (m : Table V) : Option UInt8 → Table V
  | none => m
  | some b => { m with children := m.children.erase b }

/-- The table after a change, if the change is allowed: a byte must be free and the node not full when a
    child is added, and only a leaf is put on the terminal. -/
def step (kind : Kind) (m : Table V) : Op V → Option (Table V)
  | .insert b c =>
    if b ∉ m.children ∧ m.count < kind.capacity then
      some { m with children := m.children.insert b c }
    else none
  | .replace .terminal (.leaf l) => some { m with terminal := some l }
  | .replace .terminal (.inner _) => none
  | .replace (.byte b) c =>
    some (if b ∈ m.children then { m with children := m.children.insert b c } else m)
  | .erase .terminal => some { m with terminal := none }
  | .erase (.byte b) => some { m with children := m.children.erase b }

/-- The table after some changes, if all of them are allowed. -/
def run (kind : Kind) (m : Table V) (ops : List (Op V)) : Option (Table V) :=
  ops.foldlM (step kind) m

variable {m : Table V}

theorem load_empty : (empty : Table V).load = fun _ => none := by
  funext e
  cases e with
  | terminal => rfl
  | byte b => exact Finmap.lookup_empty b

theorem load_eq_update {m' : Table V} {b : UInt8} {o : Option (Node V)}
    (hterminal : m'.terminal = m.terminal)
    (hchildren : ∀ a, m'.children.lookup a = if a = b then o else m.children.lookup a) :
    m'.load = Function.update m.load (.byte b) o := by
  funext e
  cases e with
  | terminal =>
    rw [Function.update_of_ne (fun h => Edge.noConfusion h)]
    exact congrArg (Option.map Node.leaf) hterminal
  | byte a =>
    rw [Function.update_apply]
    exact (hchildren a).trans (if_congr ⟨congrArg Edge.byte, Edge.byte.inj⟩ rfl rfl)

theorem load_insert (m : Table V) (b : UInt8) (c : Node V) :
    ({ m with children := m.children.insert b c } : Table V).load =
      Function.update m.load (.byte b) (some c) := by
  refine load_eq_update rfl fun a => ?_
  by_cases hab : a = b
  · rw [if_pos hab, hab, Finmap.lookup_insert]
  · rw [if_neg hab, Finmap.lookup_insert_of_ne _ hab]

theorem load_erase (m : Table V) (b : UInt8) :
    ({ m with children := m.children.erase b } : Table V).load =
      Function.update m.load (.byte b) none := by
  refine load_eq_update rfl fun a => ?_
  by_cases hab : a = b
  · rw [if_pos hab, hab, Finmap.lookup_erase]
  · rw [if_neg hab, Finmap.lookup_erase_ne hab]

theorem load_setTerminal (m : Table V) (o : Option (Leaf V)) :
    ({ m with terminal := o } : Table V).load =
      Function.update m.load .terminal (o.map .leaf) := by
  funext e
  cases e with
  | terminal => rw [Function.update_self]; rfl
  | byte b => rw [Function.update_of_ne (fun h => Edge.noConfusion h)]; rfl

theorem load_byte_eq_none_iff {b : UInt8} : m.load (.byte b) = none ↔ b ∉ m.children :=
  Finmap.lookup_eq_none

theorem step_insert_eq_some {kind : Kind} {b : UInt8} {c : Node V} {m' : Table V} :
    m.step kind (.insert b c) = some m' ↔
      (b ∉ m.children ∧ m.count < kind.capacity) ∧
        { m with children := m.children.insert b c } = m' := by
  unfold step
  rw [Option.ite_none_right_eq_some, Option.some.injEq]

/-- The bytes listed are the bytes counted. -/
theorem length_listing (m : Table V) : (listing fun b => m.load (.byte b)).length = m.count := by
  have hnodup : ((listing fun b => m.load (.byte b)).map Prod.fst).Nodup := by
    refine List.Pairwise.imp ?_ (List.pairwise_map.2 (listing_ascending _))
    intro a b hlt heq
    exact UInt8.lt_irrefl b (heq ▸ hlt)
  have hkeys : m.children.keys = ((listing fun b => m.load (.byte b)).map Prod.fst).toFinset := by
    ext b
    rw [Finmap.mem_keys, Finmap.mem_iff, List.mem_toFinset, List.mem_map]
    constructor
    · rintro ⟨c, hc⟩
      exact ⟨(b, c), mem_listing.2 hc, rfl⟩
    · rintro ⟨e, he, rfl⟩
      exact ⟨e.2, mem_listing.1 he⟩
  unfold count
  rw [hkeys, List.toFinset_card_of_nodup hnodup, List.length_map]

end Table

/-! ### A node keeps its table -/

namespace Branch

/-- Carry a change out. -/
def perform (n : Inner V) : Table.Op V → Except Fault (Inner V)
  | .insert b c => n.insertChild b c
  | .replace edge c => .ok (n.replace edge c)
  | .erase edge => .ok (n.erase edge)

def run (n : Inner V) (ops : List (Table.Op V)) : Except Fault (Inner V) :=
  ops.foldlM perform n

/-- The node has the children and the terminal of the table. -/
structure Tabulates (n : Inner V) (m : Table V) : Prop where
  sound : n.body.Sound
  load_eq : n.load = m.load

/-- The node answers as the table does. -/
structure Answers (n : Inner V) (m : Table V) : Prop where
  load_eq : ∀ edge, n.load edge = m.load edge
  count_eq : n.count = m.count
  /-- The entry past a position is the first one of the table above it, -/
  next_eq : ∀ pos, n.nextEntry pos =
    (m.entries.find? fun e => pos < e.1.position).map fun e => (e.1.position, e.2)
  /-- or the last one below it. -/
  prev_eq : ∀ pos, n.prevEntry pos =
    (m.entries.reverse.find? fun e => e.1.position < pos).map fun e => (e.1.position, e.2)
  /-- The entries are those of the table, and they are met in its order by a walk forward, -/
  entries_eq : n.entries = m.entries
  walk_forward : n.walk .forward beforeAll = m.entries
  /-- and in the reverse order by one backward. -/
  walk_backward : n.walk .backward afterAll = m.entries.reverse
  /-- Under a byte without a child nothing is exchanged. -/
  replace_absent : ∀ b c, b ∉ m.children → n.replace (.byte b) c = n

variable {n : Inner V} {m m' : Table V}

theorem tabulates_empty (kind : Kind) (id : NodeId) (stem : Stem) :
    (empty kind id stem : Inner V).Tabulates .empty :=
  ⟨Body.sound_empty kind, (load_empty kind id stem).trans Table.load_empty.symm⟩

theorem Tabulates.count_eq (h : n.Tabulates m) : n.count = m.count := by
  rw [count_eq_length_listing h.sound, h.load_eq, Table.length_listing]

theorem Tabulates.terminal_eq (h : n.Tabulates m) : n.terminal = m.terminal := by
  have hload : n.terminal.map Node.leaf = m.terminal.map Node.leaf := congrFun h.load_eq .terminal
  exact Option.map_injective (fun _ _ => Node.leaf.inj) hload

/-- A node in which one edge was changed has the table in which it was. -/
theorem Tabulates.alters {n' : Inner V} {edge : Edge} {o : Option (Node V)} (h : n.Tabulates m)
    (hn : n.Alters n' edge o) (hm : m'.load = Function.update m.load edge o) :
    n'.Tabulates m' ∧ n'.kind = n.kind ∧ n'.stem = n.stem :=
  ⟨⟨hn.sound, by rw [hn.load_eq, hm, h.load_eq]⟩, hn.kind_eq, hn.stem_eq⟩

theorem Tabulates.replace (h : n.Tabulates m) {b : UInt8} (c : Node V) (hb : b ∈ m.children) :
    (n.replace (.byte b) c).Tabulates { m with children := m.children.insert b c } ∧
      (n.replace (.byte b) c).kind = n.kind ∧ (n.replace (.byte b) c).stem = n.stem := by
  have hsome : (n.load (.byte b)).isSome := by
    obtain ⟨d, hd⟩ := Finmap.mem_iff.1 hb
    rw [h.load_eq]
    exact Option.isSome_iff_exists.2 ⟨d, hd⟩
  exact h.alters (alters_replace h.sound hsome (suits_byte b c)) (Table.load_insert m b c)

theorem Tabulates.replace_absent (h : n.Tabulates m) {b : UInt8} (c : Node V)
    (hb : b ∉ m.children) : n.replace (.byte b) c = n := by
  have hnone : n.body.child? b = none :=
    (congrFun h.load_eq (.byte b)).trans (Table.load_byte_eq_none_iff.2 hb)
  have hsame : n.body.replace b c = n.body :=
    h.sound.replace_eq_self fun d hd => by rw [hnone] at hd; cases hd
  show { n with body := n.body.replace b c } = n
  rw [hsame]

theorem Tabulates.erase (h : n.Tabulates m) (b : UInt8) :
    (n.erase (.byte b)).Tabulates { m with children := m.children.erase b } ∧
      (n.erase (.byte b)).kind = n.kind ∧ (n.erase (.byte b)).stem = n.stem := by
  cases hchild : n.load (.byte b) with
  | some c =>
    have hsome : (n.load (.byte b)).isSome := by rw [hchild]; rfl
    exact h.alters (alters_erase h.sound hsome) (Table.load_erase m b)
  | none =>
    have hsame : n.erase (.byte b) = n := by
      show { n with body := n.body.erase b } = n
      rw [h.sound.erase_eq_self hchild]
    rw [hsame]
    refine ⟨⟨h.sound, ?_⟩, rfl, rfl⟩
    rw [Table.load_erase, ← h.load_eq, ← hchild, Function.update_eq_self]

/-- A change that is allowed succeeds, and the node has the changed table. -/
theorem Tabulates.perform (h : n.Tabulates m) {op : Table.Op V}
    (hop : m.step n.kind op = some m') :
    ∃ n', n.perform op = .ok n' ∧ n'.Tabulates m' ∧ n'.kind = n.kind ∧ n'.stem = n.stem := by
  cases op with
  | insert b c =>
    obtain ⟨⟨hfree, hroom⟩, rfl⟩ := Table.step_insert_eq_some.1 hop
    have hnone : n.load (.byte b) = none := by
      rw [h.load_eq]
      exact Table.load_byte_eq_none_iff.2 hfree
    obtain ⟨n', hok, -, halters⟩ :=
      alters_insertChild h.sound c hnone (by rw [h.count_eq]; exact hroom)
    exact ⟨n', hok, h.alters halters (Table.load_insert m b c)⟩
  | replace edge c =>
    cases edge with
    | terminal =>
      cases c with
      | leaf l =>
        cases hop
        exact ⟨_, rfl, h.alters (alters_terminal h.sound (some l)) (Table.load_setTerminal m _)⟩
      | inner _ => cases hop
    | byte b =>
      have hop : (if b ∈ m.children then { m with children := m.children.insert b c } else m) = m' :=
        Option.some.inj hop
      by_cases hb : b ∈ m.children
      · rw [if_pos hb] at hop
        subst hop
        exact ⟨_, rfl, h.replace c hb⟩
      · rw [if_neg hb] at hop
        subst hop
        exact ⟨n, congrArg Except.ok (h.replace_absent c hb), h, rfl, rfl⟩
  | erase edge =>
    cases edge with
    | terminal =>
      cases hop
      exact ⟨_, rfl, h.alters (alters_terminal h.sound none) (Table.load_setTerminal m _)⟩
    | byte b =>
      cases hop
      exact ⟨_, rfl, h.erase b⟩

theorem Tabulates.run (h : n.Tabulates m) {ops : List (Table.Op V)}
    (hrun : m.run n.kind ops = some m') :
    ∃ n', n.run ops = .ok n' ∧ n'.Tabulates m' ∧ n'.kind = n.kind ∧ n'.stem = n.stem := by
  induction ops generalizing n m with
  | nil =>
    cases hrun
    exact ⟨n, rfl, h, rfl, rfl⟩
  | cons op ops ih =>
    unfold Table.run at hrun
    rw [List.foldlM_cons] at hrun
    obtain ⟨m₁, hop, hrest⟩ := Option.bind_eq_some_iff.1 hrun
    obtain ⟨n₁, hok, h₁, hkind, hstem⟩ := h.perform hop
    rw [← hkind] at hrest
    obtain ⟨n', hok', h', hkind', hstem'⟩ := ih h₁ hrest
    refine ⟨n', ?_, h', hkind'.trans hkind, hstem'.trans hstem⟩
    unfold run
    rw [List.foldlM_cons, hok]
    exact hok'

/-! ### A node answers as its table -/

theorem Tabulates.entries_eq (h : n.Tabulates m) : n.entries = m.entries := by
  have hbody : n.body.toList.map (fun e => (Edge.byte e.1, e.2)) =
      (allBytes.map Edge.byte).filterMap fun e => (m.load e).map fun c => (e, c) := by
    rw [h.sound.toList_eq, listing, List.map_filterMap, List.filterMap_map, ← h.load_eq]
    refine List.filterMap_congr ?_
    intro b _
    unfold labelled
    rw [Option.map_map]
    rfl
  have hterminal : n.terminal.map (fun l => (Edge.terminal, Node.leaf l)) =
      (m.load .terminal).map fun c => (Edge.terminal, c) := by
    rw [← h.load_eq, load_terminal, Option.map_map]
    rfl
  unfold entries Table.entries
  rw [hbody, hterminal]
  cases hload : m.load .terminal with
  | none => rw [List.filterMap_cons_none (by rw [hload]; rfl)]; rfl
  | some c => rw [List.filterMap_cons_some (by rw [hload]; rfl)]; rfl

theorem Tabulates.answers (h : n.Tabulates m) : n.Answers m where
  load_eq edge := congrFun h.load_eq edge
  count_eq := h.count_eq
  next_eq pos := by
    rw [← h.entries_eq]
    exact entryPast_eq h.sound .forward pos
  prev_eq pos := by
    rw [← h.entries_eq]
    exact entryPast_eq h.sound .backward pos
  entries_eq := h.entries_eq
  walk_forward := (walk_start h.sound .forward).trans h.entries_eq
  walk_backward := by
    rw [← h.entries_eq]
    exact walk_start h.sound .backward
  replace_absent _ c hb := h.replace_absent c hb

theorem Tabulates.without_eq (h : n.Tabulates m) (skip : Option UInt8) :
    n.without skip = (m.without skip).load := by
  cases skip with
  | none => exact h.load_eq
  | some b =>
    unfold without Table.without
    rw [Table.load_erase, h.load_eq]

theorem Tabulates.rebuild (h : n.Tabulates m) (kind : Kind) (skip : Option UInt8) (id : NodeId)
    (hroom : (m.without skip).count ≤ kind.capacity) :
    ∃ r, n.rebuild kind skip id = .ok r ∧ r.kind = kind ∧
      r.stem = .ofBytes n.stem.head n.stem.length ∧ r.terminal = n.terminal ∧
      r.Tabulates (m.without skip) := by
  have hfit : (listing fun b => n.without skip (.byte b)).length ≤ kind.capacity := by
    rw [h.without_eq, Table.length_listing]
    exact hroom
  obtain ⟨r, hok, -, -, hstem, hkind, hsound, hload⟩ := exists_rebuild h.sound kind skip id hfit
  have hr : r.Tabulates (m.without skip) := ⟨hsound, hload.trans (h.without_eq skip)⟩
  refine ⟨r, hok, hkind, hstem, ?_, hr⟩
  rw [hr.terminal_eq, h.terminal_eq]
  cases skip <;> rfl

end Branch

/-- The bytes that a stem keeps make the same stem again. -/
theorem Stem.ofBytes_head (bytes : Key) (length : Nat) :
    ofBytes (ofBytes bytes length).head (ofBytes bytes length).length = ofBytes bytes length := by
  unfold ofBytes
  rw [List.take_take, Nat.min_self]

/-- A node of any kind that starts empty takes every change that is allowed, and answers as the table
    that is changed in the same way. When the children that are left after a byte is skipped fit another
    kind, the node can be rebuilt in it, with the same stem and terminal and with what is left of the
    table. -/
theorem Branch.run_answers (kind : Kind) (id : NodeId) (bytes : Key) (length : Nat)
    (ops : List (Table.Op V)) {m : Table V} (h : Table.empty.run kind ops = some m) :
    ∃ n, (empty kind id (.ofBytes bytes length) : Inner V).run ops = .ok n ∧
      n.kind = kind ∧ n.stem = .ofBytes bytes length ∧ n.Answers m ∧
      ∀ kind' skip id', (m.without skip).count ≤ kind'.capacity →
        ∃ r, n.rebuild kind' skip id' = .ok r ∧ r.kind = kind' ∧ r.stem = n.stem ∧
          r.terminal = n.terminal ∧ r.Answers (m.without skip) := by
  have hempty := tabulates_empty (V := V) kind id (.ofBytes bytes length)
  have hkind : (empty kind id (.ofBytes bytes length) : Inner V).kind = kind := Body.kind_empty kind
  obtain ⟨n, hok, hn, hnkind, hnstem⟩ := hempty.run (by rw [hkind]; exact h)
  have hnstem : n.stem = .ofBytes bytes length := hnstem
  refine ⟨n, hok, hnkind.trans hkind, hnstem, hn.answers, ?_⟩
  intro kind' skip id' hroom
  obtain ⟨r, hr, hrkind, hrstem, hrterminal, htable⟩ := hn.rebuild kind' skip id' hroom
  refine ⟨r, hr, hrkind, ?_, hrterminal, htable.answers⟩
  rw [hrstem, hnstem, Stem.ofBytes_head]

/-- Children under the first byte and the last one, a terminal, one child that goes again and one that was
    never there: what is left is met in order, and it is rebuilt less the first byte. -/
theorem Branch.run_answers_both_ends :
    let ops : List (Table.Op Nat) :=
      [.insert 255 (.leaf ⟨[1, 255], 1⟩), .insert 7 (.leaf ⟨[1, 7], 2⟩),
        .replace .terminal (.leaf ⟨[1], 3⟩), .insert 0 (.leaf ⟨[1, 0], 4⟩), .erase (.byte 7),
        .replace (.byte 9) (.leaf ⟨[1, 9], 5⟩)]
    ∃ m n, Table.empty.run .node4 ops = some m ∧
      m.entries.map Prod.fst = [.terminal, .byte 0, .byte 255] ∧
      (empty .node4 0 (.ofBytes [1] 1) : Inner Nat).run ops = .ok n ∧ n.Answers m ∧
      ∃ r, n.rebuild .node48 (some 0) 1 = .ok r ∧ r.stem = n.stem ∧
        r.Answers (m.without (some 0)) := by
  intro ops
  have hmap : (Table.empty.run .node4 ops).map
      (fun m => (m.entries.map Prod.fst, (m.without (some 0)).count)) =
      some ([.terminal, .byte 0, .byte 255], 1) := by decide +kernel
  obtain ⟨m, hrun, hm⟩ := Option.map_eq_some_iff.1 hmap
  obtain ⟨hedges, hcount⟩ := Prod.mk.inj hm
  have hroom : (m.without (some 0)).count ≤ Kind.node48.capacity := by
    rw [hcount]
    decide
  obtain ⟨n, hok, -, -, hanswers, hrebuild⟩ := run_answers .node4 0 [1] 1 ops hrun
  obtain ⟨r, hr, -, hstem, -, hrest⟩ := hrebuild .node48 (some 0) 1 hroom
  exact ⟨m, n, hrun, hedges, hok, hanswers, r, hr, hstem, hrest⟩

end RadixStore
