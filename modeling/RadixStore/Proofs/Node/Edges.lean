import Mathlib
import RadixStore.Proofs.Key.Order
import RadixStore.Proofs.Node.Body

/-!
# The edges of an inner node

An inner node is a map from edges to children, of which the terminal edge comes first. Its list of
entries is that map in order, a change to one edge leaves the others alone, and the entry that a
cursor asks for is the nearest one past its position.
-/

namespace RadixStore

variable {V : Type}

namespace Branch

/-! ### The entries -/

theorem load_byte (n : Inner V) (b : UInt8) : n.load (.byte b) = n.body.child? b := rfl

theorem load_terminal (n : Inner V) : n.load .terminal = n.terminal.map .leaf := rfl

theorem terminal_eq_some_iff {n : Inner V} {l : Leaf V} :
    n.terminal = some l ↔ n.load .terminal = some (.leaf l) := by
  rw [load_terminal]
  cases n.terminal with
  | none => simp
  | some k => simp

theorem load_terminal_ne_inner {n m : Inner V} : n.load .terminal ≠ some (.inner m) := by
  rw [load_terminal]
  cases n.terminal with
  | none => simp
  | some k => simp

theorem mem_entries {n : Inner V} (h : n.body.Sound) {edge : Edge} {c : Node V} :
    (edge, c) ∈ n.entries ↔ n.load edge = some c := by
  unfold entries
  rw [List.mem_append, List.mem_map]
  cases edge with
  | terminal =>
    rw [load_terminal]
    cases n.terminal with
    | none => simp
    | some l => simp [eq_comm]
  | byte b =>
    rw [load_byte]
    constructor
    · rintro (hmem | ⟨e, he, heq⟩)
      · cases ht : n.terminal <;> rw [ht] at hmem <;> simp at hmem
      · cases heq
        exact h.mem_toList.1 he
    · intro hb
      exact Or.inr ⟨(b, c), h.mem_toList.2 hb, rfl⟩

theorem load_empty (kind : Kind) (id : NodeId) (stem : Stem) :
    (empty kind id stem : Inner V).load = fun _ => none := by
  funext e
  cases e with
  | terminal => rfl
  | byte b => exact congrFun (Body.child?_empty kind) b

theorem length_entries {n : Inner V} (h : n.body.Sound) : n.entries.length = n.entryCount := by
  unfold entries entryCount count
  rw [List.length_append, List.length_map, h.length_toList, Nat.add_comm]
  cases n.terminal <;> rfl

theorem entries_ascending {n : Inner V} (h : n.body.Sound) :
    n.entries.Pairwise fun d e => d.1.position < e.1.position := by
  unfold entries
  rw [List.pairwise_append]
  refine ⟨?_, ?_, ?_⟩
  · cases n.terminal with
    | none => exact List.Pairwise.nil
    | some l => exact List.pairwise_singleton _ _
  · rw [List.pairwise_map]
    refine h.toList_ascending.imp ?_
    intro d e hde
    have hlt := UInt8.lt_iff_toNat_lt.1 hde
    simp only [Edge.position]
    omega
  · intro d hd e he
    have hpd : d.1.position = 0 := by
      cases ht : n.terminal with
      | none => rw [ht] at hd; simp at hd
      | some l =>
        rw [ht] at hd
        simp only [Option.map_some, Option.toList_some, List.mem_singleton] at hd
        rw [hd]
        rfl
    obtain ⟨f, -, rfl⟩ := List.mem_map.1 he
    rw [hpd, Edge.position_byte]
    omega

theorem count_eq_length_listing {n : Inner V} (h : n.body.Sound) :
    n.count = (listing fun b => n.load (.byte b)).length :=
  h.count_eq

/-! ### Changing one edge -/

/-- `m` is the node `n`, but for the child on `edge`, which is `o`, and for the lock. -/
structure Alters (n m : Inner V) (edge : Edge) (o : Option (Node V)) : Prop where
  id_eq : m.id = n.id
  stem_eq : m.stem = n.stem
  kind_eq : m.kind = n.kind
  sound : m.body.Sound
  load_eq : m.load = Function.update n.load edge o

theorem Alters.withLock {n m : Inner V} {edge : Edge} {o : Option (Node V)}
    (h : n.Alters m edge o) (lock : VersionLock) : n.Alters { m with lock } edge o :=
  ⟨h.id_eq, h.stem_eq, h.kind_eq, h.sound, h.load_eq⟩

/-- Only a leaf can hang off the terminal edge. -/
def Suits (edge : Edge) (c : Node V) : Prop :=
  edge = .terminal → ∃ l, c = .leaf l

theorem suits_leaf (edge : Edge) (l : Leaf V) : Suits edge (.leaf l) := fun _ => ⟨l, rfl⟩

theorem suits_byte (b : UInt8) (c : Node V) : Suits (.byte b) c := fun h => Edge.noConfusion h

theorem load_eq_update {n m : Inner V} {edge : Edge} {o : Option (Node V)}
    (hterminal : m.terminal.map Node.leaf = Function.update n.load edge o .terminal)
    (hbody : ∀ b, m.body.child? b = Function.update n.load edge o (.byte b)) :
    m.load = Function.update n.load edge o := by
  funext e
  cases e with
  | terminal => exact hterminal
  | byte b => exact hbody b

/-- An entry after an exchange is the one that came in, or an old one on another edge. -/
theorem load_cases_of_update {n m : Inner V} {edge e : Edge} {o : Option (Node V)} {c : Node V}
    (hload : m.load = Function.update n.load edge o) (hc : m.load e = some c) :
    e = edge ∧ o = some c ∨ e ≠ edge ∧ n.load e = some c := by
  rw [hload, Function.update_apply] at hc
  by_cases he : e = edge
  · rw [if_pos he] at hc
    exact Or.inl ⟨he, hc⟩
  · rw [if_neg he] at hc
    exact Or.inr ⟨he, hc⟩

/-- The entries of a node that has two of them. -/
theorem load_eq_some_iff_of_two {n : Inner V} {e₁ e₂ e : Edge} {c₁ c₂ c : Node V}
    (h₁ : n.load e₁ = some c₁) (h₂ : n.load e₂ = some c₂)
    (hrest : ∀ e, e ≠ e₁ → e ≠ e₂ → n.load e = none) :
    n.load e = some c ↔ e = e₁ ∧ c₁ = c ∨ e = e₂ ∧ c₂ = c := by
  constructor
  · intro hc
    by_cases he₁ : e = e₁
    · rw [he₁, h₁] at hc
      exact Or.inl ⟨he₁, Option.some.inj hc⟩
    · by_cases he₂ : e = e₂
      · rw [he₂, h₂] at hc
        exact Or.inr ⟨he₂, Option.some.inj hc⟩
      · rw [hrest e he₁ he₂] at hc
        cases hc
  · rintro (⟨rfl, rfl⟩ | ⟨rfl, rfl⟩)
    · exact h₁
    · exact h₂

theorem update_load_byte (n : Inner V) (b : UInt8) (o : Option (Node V)) (a : UInt8) :
    Function.update n.load (.byte b) o (.byte a) = Function.update n.body.child? b o a := by
  rw [Function.update_apply, Function.update_apply]
  exact if_congr ⟨fun h => Edge.byte.inj h, fun h => congrArg Edge.byte h⟩ rfl rfl

theorem alters_terminal {n : Inner V} (h : n.body.Sound) (t : Option (Leaf V)) :
    n.Alters { n with terminal := t } .terminal (t.map .leaf) where
  id_eq := rfl
  stem_eq := rfl
  kind_eq := rfl
  sound := h
  load_eq := load_eq_update (by rw [Function.update_self]) fun b => by
    rw [Function.update_of_ne (fun e => Edge.noConfusion e)]
    rfl

theorem alters_body {n : Inner V} {body : Body (Node V)} {b : UInt8} {o : Option (Node V)}
    (hsound : body.Sound) (hchild : body.child? = Function.update n.body.child? b o)
    (hkind : body.kind = n.body.kind) : n.Alters { n with body } (.byte b) o where
  id_eq := rfl
  stem_eq := rfl
  kind_eq := hkind
  sound := hsound
  load_eq := load_eq_update
    (by rw [Function.update_of_ne (fun e => Edge.noConfusion e)]; rfl)
    fun a => by rw [update_load_byte, ← hchild]

theorem lock_replace (n : Inner V) (edge : Edge) (c : Node V) :
    (n.replace edge c).lock = n.lock := by
  cases edge with
  | terminal =>
    cases c with
    | leaf l => rfl
    | inner m => rfl
  | byte b => rfl

theorem alters_replace {n : Inner V} (h : n.body.Sound) {edge : Edge} {c : Node V}
    (hedge : (n.load edge).isSome) (hc : Suits edge c) :
    n.Alters (n.replace edge c) edge (some c) := by
  cases edge with
  | terminal =>
    obtain ⟨l, rfl⟩ := hc rfl
    exact alters_terminal h (some l)
  | byte b =>
    obtain ⟨hsound, hchild, hkind, -⟩ := h.replace c hedge
    have hrep : n.replace (.byte b) c = { n with body := n.body.replace b c } := by
      cases c <;> rfl
    rw [hrep]
    exact alters_body hsound hchild hkind

theorem alters_erase {n : Inner V} (h : n.body.Sound) {edge : Edge}
    (hedge : (n.load edge).isSome) : n.Alters (n.erase edge) edge none := by
  cases edge with
  | terminal => exact alters_terminal h none
  | byte b =>
    obtain ⟨hsound, hchild, hkind, -⟩ := h.erase hedge
    exact alters_body hsound hchild hkind

theorem alters_insertChild {n : Inner V} (h : n.body.Sound) {b : UInt8} (c : Node V)
    (hedge : n.load (.byte b) = none) (hroom : n.count < n.kind.capacity) :
    ∃ m, n.insertChild b c = .ok m ∧ m.lock = n.lock ∧ n.Alters m (.byte b) (some c) := by
  obtain ⟨body, hbody, hsound, hchild, hkind, -⟩ := h.insert? c hedge hroom
  refine ⟨{ n with body }, ?_, rfl, alters_body hsound hchild hkind⟩
  unfold insertChild
  rw [hbody]

/-- Putting a leaf on a free edge, with room left for a byte. -/
theorem alters_place {n : Inner V} (h : n.body.Sound) {edge : Edge} (l : Leaf V)
    (hedge : n.load edge = none) (hroom : ∀ b, edge = .byte b → n.count < n.kind.capacity) :
    ∃ m, n.place edge l = .ok m ∧ m.lock = n.lock ∧ n.Alters m edge (some (.leaf l)) := by
  cases edge with
  | terminal => exact ⟨_, rfl, rfl, alters_terminal h (some l)⟩
  | byte b => exact alters_insertChild h (.leaf l) hedge (hroom b rfl)

theorem Alters.count_eq {n m : Inner V} {edge : Edge} {o : Option (Node V)}
    (h : n.Alters m edge o) (hn : n.body.Sound) :
    match edge with
    | .terminal => m.count = n.count
    | .byte b =>
      m.count + (if (n.load (.byte b)).isSome then 1 else 0) =
        n.count + (if o.isSome then 1 else 0) := by
  have hm := count_eq_length_listing h.sound
  have hn := count_eq_length_listing hn
  rw [h.load_eq] at hm
  cases edge with
  | terminal =>
    show m.count = n.count
    rw [hm, hn]
    have hsame : (fun b => Function.update n.load .terminal o (.byte b)) =
        fun b => n.load (.byte b) := by
      funext b
      exact Function.update_of_ne (fun e => Edge.noConfusion e) _ _
    rw [hsame]
  | byte b =>
    show m.count + (if (n.load (.byte b)).isSome then 1 else 0) =
      n.count + (if o.isSome then 1 else 0)
    have hupd : (fun a => Function.update n.load (.byte b) o (.byte a)) =
        Function.update n.body.child? b o := by
      funext a
      exact update_load_byte n b o a
    rw [hupd] at hm
    have hn : n.count = (listing n.body.child?).length := hn
    rw [load_byte]
    cases hc : n.body.child? b with
    | none =>
      cases o with
      | none =>
        rw [← hc, Function.update_eq_self] at hm
        simp only [Option.isSome_none]
        omega
      | some c =>
        have hlen := length_listing_update_some c hc
        simp only [Option.isSome_none, Option.isSome_some, if_true]
        simp
        omega
    | some d =>
      have hsome : (n.body.child? b).isSome := by rw [hc]; rfl
      cases o with
      | none =>
        have hlen := length_listing_update_none hsome
        simp
        omega
      | some c =>
        have hlen := length_listing_replace c hsome
        simp
        omega

theorem isSome_terminal (n : Inner V) : n.terminal.isSome = (n.load .terminal).isSome := by
  rw [load_terminal, Option.isSome_map]

theorem Alters.entryCount_eq {n m : Inner V} {edge : Edge} {o : Option (Node V)}
    (h : n.Alters m edge o) (hn : n.body.Sound) :
    m.entryCount + (if (n.load edge).isSome then 1 else 0) =
      n.entryCount + (if o.isSome then 1 else 0) := by
  have hcount := h.count_eq hn
  unfold entryCount
  rw [isSome_terminal, isSome_terminal, h.load_eq]
  cases edge with
  | terminal =>
    have hcount : m.count = n.count := hcount
    rw [Function.update_self, hcount]
    omega
  | byte b =>
    have hcount : m.count + (if (n.load (.byte b)).isSome then 1 else 0) =
      n.count + (if o.isSome then 1 else 0) := hcount
    rw [Function.update_of_ne (fun e => Edge.noConfusion e)]
    omega

/-! ### Rebuilding -/

/-- The look-up of a body less the child that is left out. -/
def without (n : Inner V) : Option UInt8 → Edge → Option (Node V)
  | none => n.load
  | some b => Function.update n.load (.byte b) none

/-- A node whose children, less the one left out, fit the new kind can be rebuilt. -/
theorem exists_rebuild {n : Inner V} (h : n.body.Sound) (kind : Kind) (skip : Option UInt8)
    (id : NodeId)
    (hfit : (listing fun b => n.without skip (.byte b)).length ≤ kind.capacity) :
    ∃ m, n.rebuild kind skip id = .ok m ∧ m.id = id ∧ m.lock = .fresh ∧
      m.stem = .ofBytes n.stem.head n.stem.length ∧ m.kind = kind ∧ m.body.Sound ∧
      m.load = n.without skip := by
  have hlist : n.body.toList.filter (fun e => some e.1 ≠ skip) =
      listing fun b => n.without skip (.byte b) := by
    rw [h.toList_eq]
    cases skip with
    | none => exact List.filter_eq_self.2 fun e _ => by simp
    | some b =>
      have hfun : (fun a => n.without (some b) (.byte a)) =
          Function.update n.body.child? b none := by
        funext a
        exact update_load_byte n b none a
      rw [hfun, ← filter_listing]
      refine List.filter_congr ?_
      intro e _
      simp
  obtain ⟨body, hbody, hsound, hchild, hkind⟩ := Body.insertAll?_listing hfit
  refine ⟨⟨id, .fresh, .ofBytes n.stem.head n.stem.length, n.terminal, body⟩, ?_, rfl, rfl, rfl,
    hkind, hsound, ?_⟩
  · unfold rebuild
    rw [hlist, hbody]
  · funext e
    cases e with
    | terminal => cases skip <;> rfl
    | byte b =>
      show body.child? b = _
      rw [hchild]

/-! ### The nearest entry past a position -/

/-- `o` is the first entry past `pos`, among the edges that satisfy `P`. -/
def NearestAmong (n : Inner V) (P : Edge → Prop) (dir : Direction) (pos : Int) :
    Option (Int × Node V) → Prop
  | none => ∀ e, P e → dir.Passes pos e.position → n.load e = none
  | some (p, c) => ∃ e, e.position = p ∧ n.load e = some c ∧ dir.Passes pos p ∧
      ∀ e', P e' → dir.Passes pos e'.position → dir.Passes e'.position p → n.load e' = none

/-- The edges for bytes. -/
def IsByte (e : Edge) : Prop := e ≠ .terminal

theorem nearest_childAfter {n : Inner V} (h : n.body.Sound) (pos : Int) :
    n.NearestAmong IsByte .forward pos (n.childAfter pos) := by
  unfold childAfter
  by_cases hpos : pos ≤ 255
  · rw [if_pos hpos]
    have hfirst := h.isFirst_childFrom (UInt8.ofNat pos.toNat)
    have hle : ∀ b : UInt8, UInt8.ofNat pos.toNat ≤ b ↔ pos < (Edge.byte b).position := by
      intro b
      rw [UInt8.le_iff_toNat_le, UInt8.toNat_ofNat', Nat.mod_eq_of_lt (by omega),
        Edge.position_byte]
      omega
    cases hc : n.body.childFrom (UInt8.ofNat pos.toNat) with
    | none =>
      rw [hc] at hfirst
      intro e he hpast
      cases e with
      | terminal => exact absurd rfl he
      | byte b => exact hfirst b ((hle b).2 hpast)
    | some e =>
      rw [hc] at hfirst
      obtain ⟨hchild, hbound, hbetween⟩ := hfirst
      refine ⟨.byte e.1, rfl, hchild, (hle e.1).1 hbound, ?_⟩
      intro e' he' hpast hbefore
      cases e' with
      | terminal => exact absurd rfl he'
      | byte a =>
        refine hbetween a ((hle a).2 hpast) (UInt8.lt_iff_toNat_lt.2 ?_)
        have hlt : (Edge.byte a).position < (Edge.byte e.1).position := hbefore
        simp only [Edge.position] at hlt
        omega
  · rw [if_neg hpos]
    intro e he hpast
    have hlt : pos < e.position := hpast
    have hb := e.position_bounds
    cases e with
    | terminal => exact absurd rfl he
    | byte b =>
      exfalso
      have := b.toNat_lt
      simp only [Edge.position] at hlt hb
      omega

theorem nearest_childBefore {n : Inner V} (h : n.body.Sound) (pos : Int) :
    n.NearestAmong IsByte .backward pos (n.childBefore pos) := by
  unfold childBefore
  by_cases hpos : 2 ≤ pos
  · rw [if_pos hpos]
    have hfirst := h.isFirst_childUpTo (UInt8.ofNat (min (pos - 2) 255).toNat)
    have hle : ∀ b : UInt8, b ≤ UInt8.ofNat (min (pos - 2) 255).toNat ↔
        (Edge.byte b).position < pos := by
      intro b
      have hb := b.toNat_lt
      rw [UInt8.le_iff_toNat_le, UInt8.toNat_ofNat', Nat.mod_eq_of_lt (by omega),
        Edge.position_byte]
      omega
    cases hc : n.body.childUpTo (UInt8.ofNat (min (pos - 2) 255).toNat) with
    | none =>
      rw [hc] at hfirst
      intro e he hpast
      cases e with
      | terminal => exact absurd rfl he
      | byte b => exact hfirst b ((hle b).2 hpast)
    | some e =>
      rw [hc] at hfirst
      obtain ⟨hchild, hbound, hbetween⟩ := hfirst
      refine ⟨.byte e.1, rfl, hchild, (hle e.1).1 hbound, ?_⟩
      intro e' he' hpast hbefore
      cases e' with
      | terminal => exact absurd rfl he'
      | byte a =>
        refine hbetween a ((hle a).2 hpast) (UInt8.lt_iff_toNat_lt.2 ?_)
        have hlt : (Edge.byte e.1).position < (Edge.byte a).position := hbefore
        simp only [Edge.position] at hlt
        omega
  · rw [if_neg hpos]
    intro e he hpast
    have hlt : e.position < pos := hpast
    cases e with
    | terminal => exact absurd rfl he
    | byte b =>
      exfalso
      simp only [Edge.position] at hlt
      omega

theorem nearest_nextEntry {n : Inner V} (h : n.body.Sound) (pos : Int) :
    n.NearestAmong (fun _ => True) .forward pos (n.nextEntry pos) := by
  have hchild := nearest_childAfter h pos
  -- without a terminal past `pos` the nearest child is the nearest entry
  have hbody : (pos < 0 → n.load .terminal = none) →
      n.NearestAmong (fun _ => True) .forward pos (n.childAfter pos) := by
    intro hterminal
    have hskip : ∀ e, Direction.forward.Passes pos e.position → ¬ IsByte e → n.load e = none := by
      intro e hpast he
      have he : e = .terminal := not_not.1 he
      rw [he] at hpast ⊢
      exact hterminal hpast
    cases hc : n.childAfter pos with
    | none =>
      rw [hc] at hchild
      intro e _ hpast
      by_cases he : IsByte e
      · exact hchild e he hpast
      · exact hskip e hpast he
    | some e =>
      rw [hc] at hchild
      obtain ⟨edge, hp, hload, hpast, hbetween⟩ := hchild
      refine ⟨edge, hp, hload, hpast, ?_⟩
      intro e' _ hpast' hbefore
      by_cases he : IsByte e'
      · exact hbetween e' he hpast' hbefore
      · exact hskip e' hpast' he
  unfold nextEntry
  cases ht : n.terminal with
  | none =>
    refine hbody fun _ => ?_
    rw [load_terminal, ht]
    rfl
  | some l =>
    by_cases hpos : pos < 0
    · show n.NearestAmong _ .forward pos (if pos < 0 then some (0, .leaf l) else n.childAfter pos)
      rw [if_pos hpos]
      refine ⟨.terminal, rfl, by rw [load_terminal, ht]; rfl, hpos, ?_⟩
      intro e' _ _ hbefore
      have hlt : e'.position < 0 := hbefore
      have hb := e'.position_bounds
      omega
    · show n.NearestAmong _ .forward pos (if pos < 0 then some (0, .leaf l) else n.childAfter pos)
      rw [if_neg hpos]
      exact hbody fun hlt => absurd hlt hpos

theorem nearest_prevEntry {n : Inner V} (h : n.body.Sound) (pos : Int) :
    n.NearestAmong (fun _ => True) .backward pos (n.prevEntry pos) := by
  have hchild := nearest_childBefore h pos
  unfold prevEntry
  cases hc : n.childBefore pos with
  | some e =>
    rw [hc] at hchild
    obtain ⟨edge, hp, hload, hpast, hbetween⟩ := hchild
    refine ⟨edge, hp, hload, hpast, ?_⟩
    intro e' _ hpast' hbefore
    have hlt : e.1 < e'.position := hbefore
    have hb := edge.position_bounds
    refine hbetween e' ?_ hpast' hbefore
    rintro rfl
    have hzero : Edge.terminal.position = 0 := rfl
    omega
  | none =>
    rw [hc] at hchild
    have hbytes : ∀ e, Direction.backward.Passes pos e.position → e ≠ .terminal →
        n.load e = none := fun e hpast he => hchild e he hpast
    cases ht : n.terminal with
    | none =>
      intro e _ hpast
      by_cases he : e = .terminal
      · rw [he, load_terminal, ht]
        rfl
      · exact hbytes e hpast he
    | some l =>
      by_cases hpos : 0 < pos
      · show n.NearestAmong _ .backward pos (if 0 < pos then some (0, .leaf l) else none)
        rw [if_pos hpos]
        refine ⟨.terminal, rfl, by rw [load_terminal, ht]; rfl, hpos, ?_⟩
        intro e' _ hpast hbefore
        have hlt : 0 < e'.position := hbefore
        refine hbytes e' hpast ?_
        rintro rfl
        have hzero : Edge.terminal.position = 0 := rfl
        omega
      · show n.NearestAmong _ .backward pos (if 0 < pos then some (0, .leaf l) else none)
        rw [if_neg hpos]
        intro e _ hpast
        have hlt : e.position < pos := hpast
        have hb := e.position_bounds
        omega

/-- What a cursor finds past `pos` is the nearest entry there. -/
theorem nearest_entryPast {n : Inner V} (h : n.body.Sound) (dir : Direction) (pos : Int) :
    n.NearestAmong (fun _ => True) dir pos (n.entryPast dir pos) := by
  cases dir with
  | forward => exact nearest_nextEntry h pos
  | backward => exact nearest_prevEntry h pos

end Branch

end RadixStore
