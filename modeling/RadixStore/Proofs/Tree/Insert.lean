import Mathlib
import RadixStore.Proofs.Tree.Edit

/-!
# Storing a key is an edit

An attempt to store a key in a valid tree never fails. It finds the key and leaves it alone, if that
is wished, or it comes to an edit that stores the key, and says which value the key had before.
-/

namespace RadixStore

variable {V : Type}

/-! ### Where two byte strings part -/

theorem Key.getElem?_commonLength_ne {a b : Key} (h : a ≠ b) :
    a[Key.commonLength a b]? ≠ b[Key.commonLength a b]? := by
  induction a generalizing b with
  | nil =>
    cases b with
    | nil => exact absurd rfl h
    | cons y b => simp [Key.commonLength]
  | cons x a ih =>
    cases b with
    | nil => simp [Key.commonLength]
    | cons y b =>
      by_cases hxy : x = y
      · subst hxy
        have hab : a ≠ b := fun hab => h (by rw [hab])
        simpa [Key.commonLength] using ih hab
      · simp [Key.commonLength, hxy]

theorem Key.commonLength_append (a b : Key) : Key.commonLength a (a ++ b) = a.length := by
  induction a with
  | nil => rfl
  | cons x a ih => simpa [Key.commonLength] using ih

/-- A key that has a whole stem in common with what follows goes through it. -/
theorem Key.prefix_of_commonLength {path key stem : Key} (hpath : path <+: key)
    (hle : stem.length ≤ Key.commonLength stem (key.drop path.length)) : path ++ stem <+: key := by
  obtain ⟨more, rfl⟩ := hpath
  rw [List.drop_left] at hle
  have htake := Key.take_commonLength stem more
  rw [List.take_of_length_le hle] at htake
  rw [List.prefix_append_right_inj, htake]
  exact List.take_prefix _ _

theorem Edge.ofKey_ne_of_getElem?_ne {a b : Key} {depth : Nat} (h : a[depth]? ≠ b[depth]?) :
    Edge.ofKey a depth ≠ Edge.ofKey b depth := by
  intro he
  apply h
  unfold Edge.ofKey at he
  cases ha : a[depth]? with
  | none =>
    cases hb : b[depth]? with
    | none => rfl
    | some y => rw [ha, hb] at he; cases he
  | some x =>
    cases hb : b[depth]? with
    | none => rw [ha, hb] at he; cases he
    | some y => rw [ha, hb] at he; cases he; rfl

/-- Two keys that start with the same bytes share what follows as far as they have it in common,
    and then go on along different edges. -/
theorem Key.fork_of_prefix {here a b : Key} (ha : here <+: a) (hb : here <+: b) (hne : a ≠ b) :
    ∃ mid, mid.length = Key.commonLength (a.drop here.length) (b.drop here.length) ∧
      (a.drop here.length).take
        (Key.commonLength (a.drop here.length) (b.drop here.length)) = mid ∧
      here ++ mid <+: a ∧ here ++ mid <+: b ∧
      Edge.ofKey b (here ++ mid).length ≠ Edge.ofKey a (here ++ mid).length := by
  obtain ⟨a, rfl⟩ := ha
  obtain ⟨b, rfl⟩ := hb
  rw [List.drop_left, List.drop_left]
  have hab : a ≠ b := fun h => hne (by rw [h])
  have hlen : (a.take (Key.commonLength a b)).length = Key.commonLength a b := by
    rw [List.length_take]
    exact Nat.min_eq_left (Key.commonLength_le_left a b)
  refine ⟨a.take (Key.commonLength a b), hlen, rfl, ?_, ?_, ?_⟩
  · exact (List.prefix_append_right_inj here).2 (List.take_prefix _ _)
  · rw [Key.take_commonLength]
    exact (List.prefix_append_right_inj here).2 (List.take_prefix _ _)
  · refine Edge.ofKey_ne_of_getElem?_ne ?_
    rw [List.length_append, hlen, List.getElem?_append_right (Nat.le_add_right _ _),
      List.getElem?_append_right (Nat.le_add_right _ _), Nat.add_sub_cancel_left]
    exact (Key.getElem?_commonLength_ne hab).symm

/-- A key that leaves a stem half way does not go on with the next byte of the stem. -/
theorem Key.fork_of_commonLength_lt {path key stem : Key} (hpath : path <+: key)
    (hlt : Key.commonLength stem (key.drop path.length) < stem.length) :
    ∃ mid b rest, stem = mid ++ b :: rest ∧
      mid.length = Key.commonLength stem (key.drop path.length) ∧ path ++ mid <+: key ∧
      Edge.ofKey key (path ++ mid).length ≠ .byte b := by
  obtain ⟨more, rfl⟩ := hpath
  rw [List.drop_left] at hlt ⊢
  have hne : stem ≠ more := by
    rintro rfl
    have hself := Key.commonLength_append stem []
    rw [List.append_nil] at hself
    exact hlt.ne hself
  have hlen : (stem.take (Key.commonLength stem more)).length = Key.commonLength stem more := by
    rw [List.length_take]
    exact Nat.min_eq_left hlt.le
  refine ⟨stem.take (Key.commonLength stem more), stem[Key.commonLength stem more],
    stem.drop (Key.commonLength stem more + 1), ?_, hlen, ?_, ?_⟩
  · rw [List.getElem_cons_drop, List.take_append_drop]
  · rw [Key.take_commonLength]
    exact (List.prefix_append_right_inj path).2 (List.take_prefix _ _)
  · have hpart := Key.getElem?_commonLength_ne hne
    rw [List.getElem?_eq_getElem hlt] at hpart
    intro hedge
    apply hpart
    have hget : (path ++ more)[(path ++ stem.take (Key.commonLength stem more)).length]? =
        more[Key.commonLength stem more]? := by
      rw [List.length_append, hlen, List.getElem?_append_right (Nat.le_add_right _ _),
        Nat.add_sub_cancel_left]
    unfold Edge.ofKey at hedge
    rw [hget] at hedge
    cases hmore : more[Key.commonLength stem more]? with
    | none => rw [hmore] at hedge; cases hedge
    | some x => rw [hmore] at hedge; cases hedge; rfl

/-! ### Sizes after an edit -/

namespace Kind

variable {k : Kind} {count : Nat}

theorem lt_capacity_grown (hle : count ≤ k.capacity) (hlt : count < 256) :
    count < k.grown.capacity := by
  cases k <;> simp only [grown, capacity] at * <;> omega

/-- Of one child more than a kind holds, the next kind is the smallest that fits. -/
theorem isLeast_grown (h : k.capacity < count) : k.grown.IsLeast count := by
  intro j hj
  cases k <;> cases j <;> simp only [grown, capacity] at * <;> omega

end Kind

namespace Branch

variable {n m : Inner V} {path stem : Key} {isRoot : Bool} {id : NodeId}

theorem Shaped.mono (hs : n.Shaped isRoot stem) (hkind : m.kind = n.kind)
    (hentries : n.entryCount ≤ m.entryCount) (hcount : n.count ≤ m.count) :
    m.Shaped isRoot stem := by
  cases isRoot with
  | true => exact ⟨hs.1, hkind.trans hs.2⟩
  | false =>
    refine ⟨hs.1.trans hentries, ?_⟩
    rw [hkind]
    exact fun j hj => hs.2 j (hcount.trans hj)

theorem Shaped.alters (hs : n.Shaped isRoot stem) (hn : n.body.Sound) {edge : Edge} {c : Node V}
    (h : n.Alters m edge (some c)) : m.Shaped isRoot stem := by
  have hentries := h.entryCount_eq hn
  have hcount := h.count_eq hn
  refine hs.mono h.kind_eq ?_ ?_
  · rw [Option.isSome_some, if_pos rfl] at hentries
    split at hentries <;> omega
  · cases edge with
    | terminal => exact (show m.count = n.count from hcount).ge
    | byte b =>
      have hcount : m.count + (if (n.load (.byte b)).isSome then 1 else 0) =
        n.count + (if (some c).isSome then 1 else 0) := hcount
      rw [Option.isSome_some, if_pos rfl] at hcount
      split at hcount <;> omega

/-- A node with a free edge for a byte has fewer than 256 children. -/
theorem count_lt_of_free (hn : n.body.Sound) {b : UInt8} {c : Node V}
    (hfree : n.load (.byte b) = none) : n.count < 256 := by
  have hcount : n.count = (listing n.body.child?).length := hn.count_eq
  have hlen := length_listing_update_some (f := n.body.child?) c hfree
  have hle := length_listing_le (Function.update n.body.child? b (some c))
  omega

theorem isFork_of_alters {mid : Key} {m₁ m₂ : Inner V} {e₁ e₂ : Edge} {c₁ c₂ : Node V}
    (h₁ : (Branch.empty .node4 id (.ofBytes mid mid.length) : Inner V).Alters m₁ e₁ (some c₁))
    (h₂ : m₁.Alters m₂ e₂ (some c₂)) (hlock₁ : m₁.lock = VersionLock.fresh)
    (hlock₂ : m₂.lock = m₁.lock) (hne : e₁ ≠ e₂) : m₂.IsFork id mid e₁ c₁ e₂ c₂ where
  id_eq := h₂.id_eq.trans h₁.id_eq
  lock_eq := hlock₂.trans hlock₁
  stem_eq := h₂.stem_eq.trans h₁.stem_eq
  kind_eq := h₂.kind_eq.trans (h₁.kind_eq.trans (Body.kind_empty .node4))
  sound := h₂.sound
  load_eq := by rw [h₂.load_eq, h₁.load_eq, load_empty]
  edges_ne := hne

theorem exists_place_empty (id : NodeId) (st : Stem) (e : Edge) (l : Leaf V) :
    ∃ m, (Branch.empty .node4 id st : Inner V).place e l = .ok m ∧
      m.lock = VersionLock.fresh ∧
      (Branch.empty .node4 id st : Inner V).Alters m e (some (.leaf l)) ∧
      m.kind = .node4 ∧ m.count ≤ 1 := by
  have hsound : (Branch.empty .node4 id st : Inner V).body.Sound := Body.sound_empty .node4
  have hnone : (Branch.empty .node4 id st : Inner V).load e = none := by rw [load_empty]
  obtain ⟨m, hm, hlock, halters⟩ := alters_place hsound l hnone fun _ _ => Nat.zero_lt_succ 3
  refine ⟨m, hm, hlock, halters, halters.kind_eq, ?_⟩
  have hcount := halters.count_eq hsound
  cases e with
  | terminal => exact (show m.count = 0 from hcount).trans_le (Nat.zero_le 1)
  | byte b =>
    have hcount : m.count + (if ((Branch.empty .node4 id st : Inner V).load (.byte b)).isSome
      then 1 else 0) = 0 + (if (some (Node.leaf l)).isSome then 1 else 0) := hcount
    rw [hnone] at hcount
    simpa using hcount.le

/-- The node `m` is new, called `id`, and is `n` rebuilt with one entry exchanged. -/
structure Resizes (n m : Inner V) (id : NodeId) (kind : Kind) (edge : Edge) (o : Option (Node V)) :
    Prop where
  id_eq : m.id = id
  lock_eq : m.lock = .fresh
  stem_eq : m.stem = .ofBytes n.stem.head n.stem.length
  kind_eq : m.kind = kind
  sound : m.body.Sound
  load_eq : m.load = Function.update n.load edge o

/-- A node with a free edge for a byte can be rebuilt one kind larger, with a child under the byte. -/
theorem exists_grown (hn : n.body.Sound) {b : UInt8} (hfree : n.load (.byte b) = none) (c : Node V)
    (id : NodeId) : ∃ g m, n.rebuild n.kind.grown none id = .ok g ∧ g.insertChild b c = .ok m ∧
      n.Resizes m id n.kind.grown (.byte b) (some c) ∧ m.count = n.count + 1 ∧
      m.entryCount = n.entryCount + 1 := by
  have hroom : n.count < n.kind.grown.capacity :=
    Kind.lt_capacity_grown hn.count_le (count_lt_of_free (c := c) hn hfree)
  have hfit : (listing fun b => n.without none (.byte b)).length ≤ n.kind.grown.capacity :=
    (count_eq_length_listing hn).symm.trans_le hroom.le
  obtain ⟨g, hg, hgid, hglock, hgstem, hgkind, hgsound, hgload⟩ :=
    exists_rebuild hn n.kind.grown none id hfit
  have hgload : g.load = n.load := hgload
  have hgfree : g.load (.byte b) = none := by
    rw [hgload]
    exact hfree
  have hgcount : g.count = n.count := by
    rw [count_eq_length_listing hgsound, count_eq_length_listing hn, hgload]
  have hgentries : g.entryCount = n.entryCount := by
    unfold entryCount
    rw [isSome_terminal, isSome_terminal, hgcount, hgload]
  obtain ⟨m, hm, hmlock, halters⟩ :=
    alters_insertChild hgsound c hgfree (by rw [hgcount, hgkind]; exact hroom)
  have hentries := halters.entryCount_eq hgsound
  have hcount : m.count + (if (g.load (.byte b)).isSome then 1 else 0) =
    g.count + (if (some c).isSome then 1 else 0) := halters.count_eq hgsound
  rw [hgfree] at hentries hcount
  have hentries : m.entryCount = g.entryCount + 1 := by simpa using hentries
  have hcount : m.count = g.count + 1 := by simpa using hcount
  refine ⟨g, m, hg, hm, ⟨halters.id_eq.trans hgid, hmlock.trans hglock, halters.stem_eq.trans hgstem,
    halters.kind_eq.trans hgkind, halters.sound, ?_⟩, ?_, ?_⟩
  · rw [halters.load_eq, hgload]
  · rw [hcount, hgcount]
  · rw [hentries, hgentries]

/-! ### The cases of an insertion -/

variable {l : Leaf V}

theorem Holds.rebuilt_stem (hn : n.Holds path stem) :
    Stem.ofBytes n.stem.head n.stem.length = n.stem := by
  have hhead : n.stem.head.take (min n.stem.length maxStemHead) = n.stem.head := by
    rw [hn.stem_head, hn.stem_length, List.take_take, List.take_eq_take_iff]
    omega
  unfold Stem.ofBytes
  rw [hhead]

/-- What putting a leaf where it belongs comes to. -/
theorem Holds.placeLeaf (hn : n.Holds path stem) (id : NodeId) (hs : n.Shaped isRoot stem)
    (hkey : path ++ stem <+: l.key) {edge : Edge}
    (hedge : Edge.ofKey l.key (path ++ stem).length = edge) (hfree : n.load edge = none)
    (hroom : ∀ b, edge = .byte b → n.count < n.kind.capacity) :
    ∃ p, (do
      let lock ← n.lock.writeSection
      let n ← n.place edge l
      .ok (Outcome.inPlace { n with lock } none)) = Except.ok (.patched p) ∧ p.old = none ∧
      Edit id l.key (some l.value) isRoot path n p.change p.retired := by
  obtain ⟨m, hm, -, halters⟩ := alters_place hn.sound l hfree hroom
  have hmlock := halters.withLock n.lock.stepped
  refine ⟨⟨.inPlace { m with lock := n.lock.stepped }, none, none, none⟩, ?_, rfl, ?_⟩
  · rw [hn.idle.writeSection, hm]
    rfl
  · exact .leaf hn hkey hedge (fun c hc => by rw [hfree] at hc; cases hc) hmlock rfl
      (hs.alters hn.sound hmlock)

/-- What rebuilding a full node one kind larger comes to. -/
theorem Holds.grow (hn : n.Holds path stem) (id : NodeId) (hs : n.Shaped false stem)
    (hkey : path ++ stem <+: l.key) {b : UInt8}
    (hedge : Edge.ofKey l.key (path ++ stem).length = .byte b) (hfree : n.load (.byte b) = none)
    (hfull : n.isFull = true) :
    ∃ p, n.addLeaf (.byte b) l id = .ok (.patched p) ∧ p.old = none ∧
      Edit id l.key (some l.value) false path n p.change p.retired := by
  have hcap : n.kind.capacity ≤ n.count := of_decide_eq_true hfull
  obtain ⟨g, m, hg, hm, hresizes, hcount, hentries⟩ := exists_grown hn.sound hfree (.leaf l) id
  have hstem : m.stem = n.stem := hresizes.stem_eq.trans hn.rebuilt_stem
  have hshape : m.Shaped false stem := by
    have htwo : 2 ≤ n.entryCount := hs.1
    refine ⟨by omega, ?_⟩
    rw [hresizes.kind_eq]
    exact Kind.isLeast_grown (by omega)
  refine ⟨⟨.relinked (.inner m), none, some .grow, some n.retired⟩, ?_, rfl, ?_⟩
  · unfold Branch.addLeaf
    rw [hfull, hn.idle.lastSection]
    show (n.rebuild n.kind.grown none id >>= _) = _
    rw [hg]
    show (g.insertChild b (.leaf l) >>= _) = _
    rw [hm]
    rfl
  · exact .resized hn hkey hedge (fun c hc => by rw [hfree] at hc; cases hc) hresizes.id_eq
      hresizes.lock_eq hstem hresizes.sound hresizes.load_eq hshape

/-- What storing a leaf on a free edge comes to. -/
theorem Holds.addLeaf (hn : n.Holds path stem) (id : NodeId) (hs : n.Shaped isRoot stem)
    (hkey : path ++ stem <+: l.key) {edge : Edge}
    (hedge : Edge.ofKey l.key (path ++ stem).length = edge) (hfree : n.load edge = none) :
    ∃ p, n.addLeaf edge l id = .ok (.patched p) ∧ p.old = none ∧
      Edit id l.key (some l.value) isRoot path n p.change p.retired := by
  cases edge with
  | terminal =>
    unfold Branch.addLeaf
    exact hn.placeLeaf id hs hkey hedge hfree fun b hb => Edge.noConfusion hb
  | byte b =>
    cases hfull : n.isFull with
    | false =>
      have hroom : n.count < n.kind.capacity := Nat.lt_of_not_le (of_decide_eq_false hfull)
      unfold Branch.addLeaf
      rw [hfull]
      exact hn.placeLeaf id hs hkey hedge hfree fun _ _ => hroom
    | true =>
      cases isRoot with
      | true =>
        -- a full root would have a child under every byte
        have hcap : n.kind.capacity ≤ n.count := of_decide_eq_true hfull
        rw [hs.2] at hcap
        exact absurd hcap (Nat.not_le_of_lt (count_lt_of_free (c := .leaf l) hn.sound hfree))
      | false => exact hn.grow id hs hkey hedge hfree hfull

/-- What exchanging a leaf for one with the same key comes to. -/
theorem Holds.insertOver (hn : n.Holds path stem) (id : NodeId) (hs : n.Shaped isRoot stem)
    (hkey : path ++ stem <+: l.key) {edge : Edge}
    (hedge : Edge.ofKey l.key (path ++ stem).length = edge) {old : Leaf V}
    (hload : n.load edge = some (.leaf old)) (hold : old.key = l.key) :
    ∃ p, n.insertOver edge old l.value .upsert = .ok (.patched p) ∧ p.old = some old.value ∧
      Edit id l.key (some l.value) isRoot path n p.change p.retired := by
  have hsome : (n.load edge).isSome := by
    rw [hload]
    rfl
  have halters := alters_replace hn.sound hsome (suits_leaf edge ⟨old.key, l.value⟩)
  have hmlock := halters.withLock n.lock.stepped
  refine ⟨⟨.inPlace { n.replace edge (.leaf ⟨old.key, l.value⟩) with lock := n.lock.stepped },
    some old.value, none, none⟩, ?_, rfl, ?_⟩
  · unfold Branch.insertOver
    rw [hn.idle.writeSection]
    rfl
  · rw [hold] at hmlock ⊢
    refine .leaf hn hkey hedge ?_ hmlock rfl (hs.alters hn.sound hmlock)
    intro c hc
    rw [hload] at hc
    cases hc
    exact ⟨old.value, by rw [← hold]⟩

/-- What putting a new node with two leaves in the place of a leaf comes to. -/
theorem Holds.splitLeaf (hn : n.Holds path stem) (id : NodeId) (hs : n.Shaped isRoot stem)
    (hkey : path ++ stem <+: l.key) {edge : Edge}
    (hedge : Edge.ofKey l.key (path ++ stem).length = edge) {old : Leaf V}
    (hload : n.load edge = some (.leaf old)) (hne : old.key ≠ l.key) :
    ∃ p, n.splitLeaf edge old l (path.length + stem.length + 1) id = .ok (.patched p) ∧
      p.old = none ∧ Edit id l.key (some l.value) isRoot path n p.change p.retired := by
  obtain ⟨hpre, hold⟩ := (hn.under edge _ hload).edge_of_has (Node.Has.leaf old)
  cases edge with
  | terminal =>
    -- both keys would end here
    have hl := Edge.eq_of_ofKey_eq_terminal hkey hedge
    have ho := Edge.eq_of_ofKey_eq_terminal hpre hold
    exact absurd (ho.trans hl.symm) hne
  | byte b =>
    have hkey' := Edge.prefix_of_ofKey_eq_byte hkey hedge
    have hold' := Edge.prefix_of_ofKey_eq_byte hpre hold
    obtain ⟨mid, hlen, hmid, hl, ho, hedges⟩ := Key.fork_of_prefix hkey' hold' (Ne.symm hne)
    obtain ⟨m₁, hm₁, hlock₁, halters₁, hkind₁, hcount₁⟩ := exists_place_empty id
      (.ofBytes mid mid.length) (Edge.ofKey old.key (path ++ stem ++ [b] ++ mid).length) old
    have hfree : m₁.load (Edge.ofKey l.key (path ++ stem ++ [b] ++ mid).length) = none := by
      rw [halters₁.load_eq, Function.update_of_ne hedges.symm, load_empty]
    obtain ⟨m₂, hm₂, hlock₂, halters₂⟩ := alters_place halters₁.sound l hfree fun _ _ => by
      rw [hkind₁]
      exact hcount₁.trans_lt (by decide)
    have hfork := isFork_of_alters halters₁ halters₂ hlock₁ hlock₂ hedges
    have hsome : (n.load (.byte b)).isSome := by
      rw [hload]
      rfl
    have halters := (alters_replace hn.sound hsome (suits_byte b (.inner m₂))).withLock
      n.lock.stepped
    refine ⟨⟨.inPlace { n.replace (.byte b) (.inner m₂) with lock := n.lock.stepped }, none, none,
      none⟩, ?_, rfl, ?_⟩
    · have hdepth : path.length + stem.length + 1 = (path ++ stem ++ [b]).length :=
        (length_path_append_byte path stem b).symm
      unfold Branch.splitLeaf
      rw [hdepth, if_pos ⟨hkey'.length_le, hold'.length_le⟩, hn.idle.writeSection]
      dsimp only
      rw [hmid, ← hlen, ← List.length_append]
      show ((Branch.empty .node4 id (.ofBytes mid mid.length) : Inner V).place _ old >>= _) = _
      rw [hm₁]
      show (m₁.place _ l >>= _) = _
      rw [hm₂]
      rfl
    · exact .forkedLeaf hn hload rfl ho hl hfork halters rfl (hs.alters hn.sound halters)

/-- What putting a new node above one whose stem the key leaves comes to. -/
theorem Holds.splitStem (hn : n.Holds path stem) (id : NodeId) (hs : n.Shaped isRoot stem)
    (hpath : path <+: l.key)
    (hlt : Key.commonLength stem (l.key.drop path.length) < stem.length) :
    ∃ p, n.splitStem l path.length (Key.commonLength stem (l.key.drop path.length)) stem id =
        .ok (.patched p) ∧
      p.old = none ∧ Edit id l.key (some l.value) isRoot path n p.change p.retired := by
  obtain ⟨mid, b, rest, hstem, hlen, hkey, hedge⟩ := Key.fork_of_commonLength_lt hpath hlt
  -- the stem of the root is empty
  have hroot : isRoot = false := by
    cases isRoot with
    | false => rfl
    | true =>
      rw [hs.1] at hlt
      exact absurd hlt (Nat.not_lt_zero _)
  subst hroot
  obtain ⟨m₁, hm₁, hlock₁, halters₁, hkind₁, hcount₁⟩ := exists_place_empty id
    (.ofBytes mid mid.length) (Edge.ofKey l.key (path ++ mid).length) l
  have hfree : m₁.load (.byte b) = none := by
    rw [halters₁.load_eq, Function.update_of_ne hedge.symm, load_empty]
  obtain ⟨m₂, hm₂, hlock₂, halters₂⟩ :=
    alters_insertChild halters₁.sound (.inner (n.cut rest)) hfree (by
      rw [hkind₁]
      exact hcount₁.trans_lt (by decide))
  have hfork := isFork_of_alters halters₁ halters₂ hlock₁ hlock₂ hedge
  refine ⟨⟨.relinked (.inner m₂), none, some .stemSplit, none⟩, ?_, rfl, ?_⟩
  · rw [← hlen]
    unfold Branch.splitStem
    rw [hstem, List.drop_left, List.take_left]
    show (n.lock.writeSection >>= _) = _
    rw [hn.idle.writeSection, ← List.length_append]
    show ((Branch.empty .node4 id (.ofBytes mid mid.length) : Inner V).place _ l >>= _) = _
    rw [hm₁]
    show (m₁.insertChild b (.inner (n.cut rest)) >>= _) = _
    rw [hm₂]
    rfl
  · subst hstem
    exact .forkedStem hn hs rfl hkey hfork

end Branch

/-! ### Edits below a node -/

/-- The value that the key had, as an outcome reports it. -/
def Outcome.old : Outcome V → Option V
  | .unchanged found => found
  | .patched p => p.old

namespace Branch

variable {n : Inner V} {path stem : Key} {isRoot : Bool} {id : NodeId}

theorem Holds.lift (hn : n.Holds path stem) (hs : n.Shaped isRoot stem) {key : Key} {o : Option V}
    {b : UInt8} {c : Inner V} (hload : n.load (.byte b) = some (.inner c))
    (hkey : path ++ stem ++ [b] <+: key) {p : Patch V}
    (h : Edit id key o false (path ++ stem ++ [b]) c p.change p.retired) :
    ∃ q, n.lift (.byte b) (.patched p) = .ok (.patched q) ∧ q.old = p.old ∧
      Edit id key o isRoot path n q.change q.retired := by
  have hsome : (n.load (.byte b)).isSome := by
    rw [hload]
    rfl
  obtain ⟨change, old, reshape, retired⟩ := p
  cases change with
  | inPlace d =>
    have halters := alters_replace hn.sound hsome (suits_byte b (.inner d))
    refine ⟨⟨.inPlace (n.replace (.byte b) (.inner d)), old, reshape, retired⟩, rfl, rfl, ?_⟩
    exact .belowInPlace hn hkey hload h halters rfl (hs.alters hn.sound halters)
  | relinked d =>
    have halters := (alters_replace hn.sound hsome (suits_byte b d)).withLock n.lock.stepped
    refine ⟨⟨.inPlace { n.replace (.byte b) d with lock := n.lock.stepped }, old, reshape,
      retired⟩, ?_, rfl, ?_⟩
    · show ((n.lock.writeSection.map _).map _) = _
      rw [hn.idle.writeSection]
      rfl
    · exact .belowRelinked hn hkey hload h halters rfl (hs.alters hn.sound halters)
  | unlinked => exact h.valid.elim

/-- The leaves with a key below a node are those below the child that the key leads to. -/
theorem Holds.has_child_iff (hn : n.Holds path stem) {key : Key} {edge : Edge}
    (hedge : Edge.ofKey key (path ++ stem).length = edge) {c : Node V}
    (hload : n.load edge = some c) (v : V) : (Node.inner n).Has ⟨key, v⟩ ↔ c.Has ⟨key, v⟩ := by
  constructor
  · intro hhas
    exact hn.has_of_edge hhas hedge hload
  · intro hhas
    exact Node.Has.inner hload hhas

/-- No leaf has a key that leads to a free edge. -/
theorem Holds.not_has_of_free (hn : n.Holds path stem) {key : Key} {edge : Edge}
    (hedge : Edge.ofKey key (path ++ stem).length = edge) (hfree : n.load edge = none) (v : V) :
    ¬ (Node.inner n).Has ⟨key, v⟩ := by
  intro hhas
  obtain ⟨c, hc, -⟩ := (hn.has_iff_of_edge hedge).1 hhas
  rw [hfree] at hc
  cases hc

/-- Where its edge leads to a leaf with another key, no leaf has the key. -/
theorem Holds.not_has_of_leaf (hn : n.Holds path stem) {key : Key} {k : Leaf V}
    (hload : n.load (.ofKey key (path ++ stem).length) = some (.leaf k)) (hne : k.key ≠ key) (v : V) :
    ¬ (Node.inner n).Has ⟨key, v⟩ := by
  rw [hn.has_child_iff rfl hload, Node.has_leaf_iff]
  rintro rfl
  exact hne rfl

/-- Where its edge leads to a leaf with the key, the value is known. -/
theorem Holds.value_iff_of_leaf (hn : n.Holds path stem) {k : Leaf V}
    (hload : n.load (.ofKey k.key (path ++ stem).length) = some (.leaf k)) (v : V) :
    some k.value = some v ↔ (Node.inner n).Has ⟨k.key, v⟩ := by
  rw [hn.has_child_iff rfl hload, Node.has_leaf_iff]
  constructor
  · intro hv
    cases hv
    rfl
  · intro hv
    rw [← hv]

end Branch

/-! ### The whole insertion -/

/-- What an attempt to store `l` may come to. -/
def Outcome.Stores (id : NodeId) (l : Leaf V) (mode : InsertMode) (isRoot : Bool) (path : Key)
    (n : Inner V) : Outcome V → Prop
  | .unchanged found => mode = .ifAbsent ∧ found.isSome
  | .patched p => Edit id l.key (some l.value) isRoot path n p.change p.retired ∧
      (mode = .ifAbsent → p.old = none)

namespace Branch

variable {id : NodeId}

/-- The outcome of a case that finds no leaf with the key. -/
theorem stores_of_absent {l : Leaf V} {mode : InsertMode} {n : Inner V} {isRoot : Bool} {path : Key}
    {p : Patch V} (hold : p.old = none) (habsent : ∀ v, ¬ (Node.inner n).Has ⟨l.key, v⟩)
    (h : Edit id l.key (some l.value) isRoot path n p.change p.retired) :
    (∀ v, (Outcome.patched p).old = some v ↔ (Node.inner n).Has ⟨l.key, v⟩) ∧
      (Outcome.patched p).Stores id l mode isRoot path n := by
  refine ⟨?_, h, fun _ => hold⟩
  intro v
  refine iff_of_false ?_ (habsent v)
  show p.old ≠ some v
  rw [hold]
  exact fun h => by cases h

/-- Storing a leaf below a valid node succeeds. It reports the value that the key had, and unless it
    was to leave that alone, it comes to an edit that stores the leaf. -/
theorem Valid.insert (id : NodeId) (l : Leaf V) (mode : InsertMode) {n : Inner V} {isRoot : Bool} {path : Key}
    (h : n.Valid isRoot path) (hpath : path <+: l.key) :
    ∃ out, n.insert l mode id path.length = .ok out ∧
      (∀ v, out.old = some v ↔ (Node.inner n).Has ⟨l.key, v⟩) ∧
      out.Stores id l mode isRoot path n := by
  obtain ⟨stem, hn, hs⟩ := h
  rw [Branch.insert, hn.liveSnapshot, hn.fullStem hs]
  show ∃ out, (if l.key.length < path.length then _ else _) = _ ∧ _
  rw [if_neg (Nat.not_lt_of_le hpath.length_le)]
  by_cases hlt : Key.commonLength stem (l.key.drop path.length) < stem.length
  · rw [if_pos hlt]
    obtain ⟨p, hp, hold, hedit⟩ := hn.splitStem id hs hpath hlt
    refine ⟨_, hp, stores_of_absent hold ?_ hedit⟩
    -- a leaf with this key would go on with the whole stem
    intro v hhas
    obtain ⟨more, hmore⟩ := hn.prefix_of_has hhas
    rw [← hmore, List.append_assoc, List.drop_left] at hlt
    exact absurd (Key.commonLength_append stem more) hlt.ne
  · rw [if_neg hlt]
    have hkey : path ++ stem <+: l.key := Key.prefix_of_commonLength hpath (Nat.le_of_not_lt hlt)
    have hdepth : path.length + stem.length = (path ++ stem).length := List.length_append.symm
    split
    · rename_i hload
      rw [hdepth] at hload ⊢
      obtain ⟨p, hp, hold, hedit⟩ := hn.addLeaf id hs hkey rfl hload
      exact ⟨_, hp, stores_of_absent hold (hn.not_has_of_free rfl hload) hedit⟩
    · rename_i old hload
      rw [hdepth] at hload
      by_cases hsame : old.key = l.key
      · rw [if_pos hsame, hdepth]
        have hreport : ∀ v, some old.value = some v ↔ (Node.inner n).Has ⟨l.key, v⟩ :=
          hsame ▸ hn.value_iff_of_leaf (hsame ▸ hload)
        cases mode with
        | ifAbsent => exact ⟨_, rfl, hreport, rfl, rfl⟩
        | upsert =>
          obtain ⟨p, hp, hold, hedit⟩ := hn.insertOver id hs hkey rfl hload hsame
          refine ⟨_, hp, ?_, hedit, fun hmode => by cases hmode⟩
          intro v
          rw [← hreport v, ← hold]
          rfl
      · rw [if_neg hsame]
        obtain ⟨p, hp, hold, hedit⟩ := hn.splitLeaf id hs hkey rfl hload hsame
        rw [← hdepth] at hp
        exact ⟨_, hp, stores_of_absent hold (hn.not_has_of_leaf hload hsame) hedit⟩
    · rename_i m hload
      rw [hdepth] at hload
      obtain ⟨b, hb⟩ := edge_of_load_inner hload
      rw [hb] at hload
      have hkey' := Edge.prefix_of_ofKey_eq_byte hkey hb
      obtain ⟨out, hout, hold, hstores⟩ :=
        Valid.insert id l mode (hn.valid_of_load_inner hload) hkey'
      rw [length_path_append_byte] at hout
      rw [hout]
      have hreport : ∀ v, out.old = some v ↔ (Node.inner n).Has ⟨l.key, v⟩ := by
        intro v
        rw [hold v, hn.has_child_iff hb hload]
      rw [hdepth, hb]
      cases out with
      | unchanged found => exact ⟨_, rfl, hreport, hstores⟩
      | patched p =>
        obtain ⟨q, hq, hqold, hedit⟩ := hn.lift hs hload hkey' hstores.1
        refine ⟨_, hq, ?_, hedit, ?_⟩
        · intro v
          rw [← hreport v]
          exact iff_of_eq (congrArg (· = some v) hqold)
        · intro hmode
          exact hqold.trans (hstores.2 hmode)
termination_by l.key.length - path.length
decreasing_by
  simp only [List.length_append, List.length_singleton]
  have := hkey'.length_le
  simp only [List.length_append, List.length_singleton] at this
  omega

end Branch

end RadixStore
