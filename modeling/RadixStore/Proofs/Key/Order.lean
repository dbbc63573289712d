import Mathlib
import RadixStore.Cursor.Basic

/-!
# The order of keys

What the descent through the tree relies on. Two keys that share their first bytes compare by the
edges on which they go on, the edge of a key that ends coming first. The keys that start with given
bytes form an interval: a key outside of it lies on the same side of all of them. Both facts are
stated for a direction, so that they serve cursors that go either way.
-/

namespace RadixStore

/-! ### Edges of a key -/

namespace Edge

theorem ofKey_of_getElem? {key : Key} {depth : Nat} {b : UInt8} (h : key[depth]? = some b) :
    ofKey key depth = .byte b := by
  unfold ofKey
  rw [h]

theorem ofKey_of_getElem?_eq_none {key : Key} {depth : Nat} (h : key[depth]? = none) :
    ofKey key depth = .terminal := by
  unfold ofKey
  rw [h]

theorem ofKey_append_nil (path : Key) : ofKey path path.length = .terminal := by
  simp [ofKey]

theorem ofKey_append_cons (path : Key) (b : UInt8) (rest : Key) :
    ofKey (path ++ b :: rest) path.length = .byte b := by
  simp [ofKey]

theorem prefix_of_ofKey_eq_byte {path key : Key} {b : UInt8} (h : path <+: key)
    (hb : ofKey key path.length = .byte b) : path ++ [b] <+: key := by
  obtain ⟨rest, rfl⟩ := h
  cases rest with
  | nil =>
    rw [List.append_nil, ofKey_append_nil] at hb
    exact Edge.noConfusion hb
  | cons c rest =>
    rw [ofKey_append_cons, Edge.byte.injEq] at hb
    subst hb
    exact ⟨rest, by simp⟩

theorem ofKey_eq_byte_of_prefix {path key : Key} {b : UInt8} (h : path ++ [b] <+: key) :
    ofKey key path.length = .byte b := by
  obtain ⟨rest, rfl⟩ := h
  rw [List.append_assoc, List.singleton_append, ofKey_append_cons]

theorem eq_of_ofKey_eq_terminal {path key : Key} (h : path <+: key)
    (ht : ofKey key path.length = .terminal) : key = path := by
  obtain ⟨rest, rfl⟩ := h
  cases rest with
  | nil => rw [List.append_nil]
  | cons c rest =>
    rw [ofKey_append_cons] at ht
    exact Edge.noConfusion ht

theorem position_byte (b : UInt8) : (byte b).position = (b.toNat : Int) + 1 := rfl

theorem position_injective {e f : Edge} (h : e.position = f.position) : e = f := by
  cases e with
  | terminal =>
    cases f with
    | terminal => rfl
    | byte c => simp only [position] at h; omega
  | byte b =>
    cases f with
    | terminal => simp only [position] at h; omega
    | byte c =>
      have hbc : b.toNat = c.toNat := by simp only [position] at h; omega
      rw [UInt8.toNat_inj.1 hbc]

theorem position_bounds (e : Edge) : 0 ≤ e.position ∧ e.position ≤ 256 := by
  cases e with
  | terminal => exact ⟨le_refl _, by decide⟩
  | byte b =>
    have hb : b.toNat < 256 := b.toNat_lt
    simp only [position]
    omega

end Edge

/-! ### Comparing keys that share their first bytes -/

namespace Key

theorem append_lt_append_iff (path a b : Key) : path ++ a < path ++ b ↔ a < b := by
  induction path with
  | nil => rfl
  | cons x path ih =>
    rw [List.cons_append, List.cons_append, List.cons_lt_cons_iff, ih]
    constructor
    · rintro (h | ⟨-, h⟩)
      · exact absurd h (UInt8.lt_irrefl x)
      · exact h
    · intro h
      exact Or.inr ⟨rfl, h⟩

/-- Keys that go on along different edges compare as the edges do. -/
theorem lt_iff_position_lt {path a b : Key} (ha : path <+: a) (hb : path <+: b)
    (hne : Edge.ofKey a path.length ≠ Edge.ofKey b path.length) :
    a < b ↔ (Edge.ofKey a path.length).position < (Edge.ofKey b path.length).position := by
  obtain ⟨a, rfl⟩ := ha
  obtain ⟨b, rfl⟩ := hb
  rw [append_lt_append_iff]
  cases a with
  | nil =>
    cases b with
    | nil => exact absurd rfl hne
    | cons y b =>
      rw [List.append_nil, Edge.ofKey_append_nil, Edge.ofKey_append_cons, Edge.position_byte]
      have hy : (0 : Int) < (y.toNat : Int) + 1 := by omega
      exact iff_of_true (List.nil_lt_cons y b) hy
  | cons x a =>
    cases b with
    | nil =>
      rw [List.append_nil, Edge.ofKey_append_nil, Edge.ofKey_append_cons, Edge.position_byte]
      have hx : ¬ (x.toNat : Int) + 1 < 0 := by omega
      exact iff_of_false (List.not_lt_nil _) hx
    | cons y b =>
      rw [Edge.ofKey_append_cons, Edge.ofKey_append_cons] at hne ⊢
      have hxy : x ≠ y := fun h => hne (congrArg Edge.byte h)
      rw [List.cons_lt_cons_iff, UInt8.lt_iff_toNat_lt, Edge.position_byte, Edge.position_byte]
      constructor
      · rintro (h | ⟨h, -⟩)
        · omega
        · exact absurd h hxy
      · intro h
        exact Or.inl (by omega)

/-- The keys that start with `path` lie on the same side of a key that does not. -/
theorem lt_iff_lt_of_prefix {path a a' b : Key} (ha : path <+: a) (ha' : path <+: a')
    (hb : ¬ path <+: b) : (a < b ↔ a' < b) ∧ (b < a ↔ b < a') := by
  induction path generalizing a a' b with
  | nil => exact absurd (List.nil_prefix) hb
  | cons x path ih =>
    obtain ⟨u, rfl⟩ := ha
    obtain ⟨u', rfl⟩ := ha'
    cases b with
    | nil => simp
    | cons y b =>
      by_cases hxy : x = y
      · subst hxy
        have hpb : ¬ path <+: b := fun h => hb (List.cons_prefix_cons.2 ⟨rfl, h⟩)
        have hi := ih (List.prefix_append path u) (List.prefix_append path u') hpb
        simpa [List.cons_lt_cons_iff] using hi
      · have hyx : y ≠ x := fun h => hxy h.symm
        simp [List.cons_lt_cons_iff, hxy, hyx]

end Key

/-! ### Directions -/

namespace Direction

/-- Whether position `q` comes after position `p`. -/
def Passes (dir : Direction) (p q : Int) : Prop :=
  match dir with
  | .forward => p < q
  | .backward => q < p

instance (dir : Direction) (p q : Int) : Decidable (dir.Passes p q) :=
  match dir with
  | .forward => inferInstanceAs (Decidable (p < q))
  | .backward => inferInstanceAs (Decidable (q < p))

theorem not_passes_self (dir : Direction) (p : Int) : ¬ dir.Passes p p := by
  cases dir <;> simp [Passes]

theorem Passes.trans {dir : Direction} {p q r : Int} (hpq : dir.Passes p q)
    (hqr : dir.Passes q r) : dir.Passes p r := by
  cases dir with
  | forward => exact lt_trans hpq hqr
  | backward => exact lt_trans hqr hpq

theorem passes_or_passes_of_ne {dir : Direction} {p q : Int} (h : p ≠ q) :
    dir.Passes p q ∨ dir.Passes q p := by
  cases dir with
  | forward => exact lt_or_gt_of_ne h
  | backward => exact (lt_or_gt_of_ne h).symm

theorem passes_start (dir : Direction) (e : Edge) : dir.Passes dir.start e.position := by
  have hb := e.position_bounds
  cases dir with
  | forward => show beforeAll < e.position; unfold beforeAll; omega
  | backward => show e.position < afterAll; unfold afterAll; omega

theorem isPast_irrefl (dir : Direction) (a : Key) : dir.isPast a a = false := by
  cases dir <;> simp [isPast, List.lt_irrefl]

theorem isPast_trans {dir : Direction} {a b c : Key} (hab : dir.isPast a b = true)
    (hbc : dir.isPast b c = true) : dir.isPast a c = true := by
  cases dir with
  | forward =>
    simp only [isPast, decide_eq_true_eq] at *
    exact List.lt_trans hab hbc
  | backward =>
    simp only [isPast, decide_eq_true_eq] at *
    exact List.lt_trans hbc hab

theorem isPast_asymm {dir : Direction} {a b : Key} (hab : dir.isPast a b = true) :
    dir.isPast b a = false := by
  by_contra h
  have hba : dir.isPast b a = true := by simpa using h
  have haa := isPast_trans hab hba
  rw [isPast_irrefl] at haa
  exact Bool.noConfusion haa

theorem isPast_iff_passes {dir : Direction} {path a b : Key} (ha : path <+: a) (hb : path <+: b)
    (hne : Edge.ofKey a path.length ≠ Edge.ofKey b path.length) :
    dir.isPast a b = true ↔
      dir.Passes (Edge.ofKey a path.length).position (Edge.ofKey b path.length).position := by
  cases dir with
  | forward =>
    simp only [isPast, decide_eq_true_eq, Passes]
    exact Key.lt_iff_position_lt ha hb hne
  | backward =>
    simp only [isPast, decide_eq_true_eq, Passes]
    exact Key.lt_iff_position_lt hb ha hne.symm

/-- A key that does not start with `path` follows all keys that do, or none. -/
theorem isPast_congr_left {dir : Direction} {path a a' b : Key} (ha : path <+: a)
    (ha' : path <+: a') (hb : ¬ path <+: b) : dir.isPast a b = dir.isPast a' b := by
  have h := Key.lt_iff_lt_of_prefix ha ha' hb
  cases dir with
  | forward => simpa [isPast] using h.1
  | backward => simpa [isPast] using h.2

end Direction

end RadixStore
