import Mathlib
import RadixStore.Proofs.Cursor.Seek
import RadixStore.Proofs.Tree.Arrangement

/-!
# Nothing stands in the way

An attempt ends with a fault when it meets something that it cannot trust. As long as one operation
is done after the other, none ever does: between two operations no lock is held and no node that is
linked is obsolete, every stem is found whole, a node has room for a child whenever it gets one, and
no number of children is counted down from zero. So the first attempt of every operation succeeds,
and no seek of a cursor has to be repeated.
-/

namespace RadixStore

variable {V : Type}

/-! ### Bodies -/

namespace Body

variable {α : Type} {body : Body α}

/-- The places that are read and written exist: an index names only slots that there are, and a byte
    always has a place. -/
def Addressable : Body α → Prop
  | .node4 _ | .node16 _ => True
  | .node48 x => x.index.length = 256 ∧ x.slots.length = 48 ∧
      ∀ b s, x.slot? b = some s → s < 48
  | .node256 d => d.slots.length = 256

/-- A body keeps its count and its places within bounds. -/
structure InBounds (body : Body α) : Prop where
  addressable : body.Addressable
  count_le : body.count ≤ body.kind.capacity
  /-- A child that can be taken out is counted. -/
  count_pos : ∀ b, (body.child? b).isSome → 0 < body.count

theorem Sound.addressable (h : body.Sound) : body.Addressable := by
  cases body with
  | node4 f | node16 f => trivial
  | node48 x =>
    have hlaid : x.Laid := h.laid
    refine ⟨hlaid.index_length, hlaid.slots_length, ?_⟩
    intro b s hs
    obtain ⟨c, hc⟩ := Option.isSome_iff_exists.1 (hlaid.named b s hs)
    exact (Slots.lt_length_of_at? hc).trans_eq hlaid.slots_length
  | node256 d => exact h.laid

theorem Sound.inBounds (h : body.Sound) : body.InBounds where
  addressable := h.addressable
  count_le := h.count_le
  count_pos b hb := by
    obtain ⟨c, hc⟩ := Option.isSome_iff_exists.1 hb
    rw [← h.length_toList]
    exact List.length_pos_of_mem (h.mem_toList (e := (b, c)) |>.2 hc)

end Body

/-! ### Seeking from any node -/

namespace Branch

/-- Seeking from a valid node succeeds, wherever the bound lies. -/
theorem Valid.exists_seek (dir : Direction) (bound : Key) {n : Inner V} {isRoot : Bool} {path : Key}
    (hn : n.Valid isRoot path) (seen : Snapshot) (stack : List Checkpoint) :
    ∃ fresh, n.seek dir bound path.length seen stack = .ok fresh := by
  obtain ⟨hseek, -⟩ | ⟨pos, hseek, -⟩ | ⟨stem, b, m, -, -, hm, hlt, -, hseek⟩ :=
    hn.seek_cases dir bound seen stack
  · exact ⟨_, hseek⟩
  · exact ⟨_, hseek⟩
  · rw [hseek]
    exact Valid.exists_seek dir bound hm _ _
termination_by bound.length - path.length
decreasing_by
  simp only [List.length_append, List.length_singleton]
  omega

theorem Valid.exists_seekFrom (dir : Direction) (bound : Option Key) {n : Inner V} {isRoot : Bool}
    {path path' : Key} (hn : n.Valid isRoot path) (hlen : path'.length = path.length)
    (seen : Snapshot) (stack : List Checkpoint) :
    ∃ fresh, n.seekFrom dir bound path' seen stack = .ok fresh := by
  cases bound with
  | none => exact ⟨_, rfl⟩
  | some bound =>
    show ∃ fresh, n.seek dir bound path'.length seen stack = .ok fresh
    rw [hlen]
    exact hn.exists_seek dir bound seen stack

end Branch

namespace Tree

/-! ### Trees -/

variable {t : Tree V}

/-- No lock is held, and no node that is linked is obsolete. -/
def Unlocked (t : Tree V) : Prop :=
  ∀ n q, t.root.Reaches [] n q → n.lock.isLocked = false ∧ n.lock.isObsolete = false

theorem Valid.unlocked (ht : t.Valid) : t.Unlocked := by
  intro n q hreach
  obtain ⟨r, stem, hholds, -⟩ := hreach.valid ht
  exact ⟨hholds.idle.not_locked, hholds.idle.not_obsolete⟩

theorem Valid.searchFault?_eq_none (ht : t.Valid) (key : Key) : t.searchFault? key = none := by
  obtain ⟨found, hfound, -⟩ := Branch.Valid.search key ht
  have hsearch : t.trySearch key = .ok found := hfound
  simp only [searchFault?, hsearch]

/-- Whatever is attempted on the tree next succeeds at the first attempt. -/
structure Unobstructed (t : Tree V) : Prop where
  unlocked : t.Unlocked
  search : ∀ key, ∃ found, t.trySearch key = .ok found
  insert : ∀ key value mode, ∃ w, t.tryInsert key value mode = .ok w ∧ w.fault = none ∧
    w.tree.Unlocked
  remove : ∀ key, ∃ w, t.tryRemove key = .ok w ∧ w.fault = none ∧ w.tree.Unlocked
  /-- A cursor finds its way from the root, -/
  seek : ∀ dir bound, ∃ fresh, t.seek dir bound = .ok fresh
  /-- and from every checkpoint that holds. -/
  resume : ∀ cp n dir bound, t.resolve cp = .ok n →
    ∃ fresh, n.seekFrom dir bound cp.path cp.seen [] = .ok fresh
  bodies : ∀ n q, t.root.Reaches [] n q → n.body.InBounds
  /-- A stem is no longer than some stored key, so that a width that is enough for the lengths of the
      keys is enough for the stems. -/
  stems : ∀ n q, t.root.Reaches [] n q → 0 < n.stem.length →
    ∃ key, (t.get? key).isSome ∧ q.length + n.stem.length ≤ key.length
  /-- A key that can be removed is counted. -/
  size_pos : ∀ key, (t.get? key).isSome → 0 < t.size

theorem Valid.exists_resume (ht : t.Valid) {cp : Checkpoint} {n : Inner V}
    (h : t.resolve cp = .ok n) (dir : Direction) (bound : Option Key) :
    ∃ fresh, n.seekFrom dir bound cp.path cp.seen [] = .ok fresh := by
  unfold Tree.resolve at h
  cases hfind : t.root.find? cp.id cp.path 0 with
  | none =>
    rw [hfind] at h
    cases h
  | some m =>
    rw [hfind] at h
    obtain ⟨r, hreach, hlen, -⟩ := Branch.Valid.exists_reaches_of_find? ht hfind
    obtain ⟨isRoot, hm⟩ := hreach.valid ht
    have h : (m.lock.validate cp.seen).map (fun _ => m) = .ok n := h
    cases hval : m.lock.validate cp.seen with
    | error e =>
      rw [hval] at h
      cases h
    | ok u =>
      rw [hval] at h
      cases h
      exact hm.exists_seekFrom dir bound hlen.symm cp.seen []

theorem Represents.unobstructed {m : Dictionary V} (h : t.Represents m) : t.Unobstructed where
  unlocked := h.valid.unlocked
  search key := by
    obtain ⟨found, hfound, -⟩ := Branch.Valid.search key h.valid
    exact ⟨found, hfound⟩
  insert key value mode := by
    obtain ⟨w, hw, hfault, -, hcase⟩ := h.valid.tryInsert key value mode
    refine ⟨w, hw, hfault, ?_⟩
    rcases hcase with ⟨-, -, hsame⟩ | ⟨-, hedit, -⟩
    · rw [hsame]
      exact h.valid.unlocked
    · exact hedit.valid.unlocked
  remove key := by
    obtain ⟨w, hw, hfault, -, hcase⟩ := h.valid.tryRemove key
    refine ⟨w, hw, hfault, ?_⟩
    cases hget : t.get? key with
    | none =>
      rw [hget] at hcase
      rw [hcase]
      exact h.valid.unlocked
    | some v =>
      rw [hget] at hcase
      exact hcase.1.valid.unlocked
  seek dir bound := by
    obtain ⟨stem, hholds, hshape⟩ := h.valid
    unfold Tree.seek
    rw [hholds.liveSnapshot]
    exact Branch.Valid.exists_seekFrom dir bound ⟨stem, hholds, hshape⟩ rfl _ _
  resume cp n dir bound hcp := h.valid.exists_resume hcp dir bound
  bodies n q hreach := by
    obtain ⟨r, stem, hholds, -⟩ := hreach.valid h.valid
    exact hholds.sound.inBounds
  stems n q hreach hpos := by
    obtain ⟨r, hn⟩ := hreach.valid h.valid
    obtain ⟨l, hl, hlen⟩ := hn.exists_key_of_stem hpos
    refine ⟨l.key, ?_, hlen⟩
    rw [h.valid.get?_eq_some_iff.2 (hreach.has hl)]
    rfl
  size_pos key hkey := by
    rw [h.get?_eq, ← Dictionary.mem_keys_iff] at hkey
    rw [h.size_eq]
    exact Finset.card_pos.2 ⟨key, hkey⟩

end Tree

/-! ### Scripts -/

namespace TreeScript

namespace State

variable {st : State V}

/-- A step of a script counts no attempt that came to nothing. -/
theorem step_restarts (h : st.tree.Valid) (hzero : st.counters.restarts = 0) (op : Op V) :
    (st.step op).1.counters.restarts = 0 := by
  have hwritten : ∀ w : Written V, w.fault = none → (st.write w).counters.restarts = 0 := by
    intro w hw
    show ((st.counters.reshaped w.reshape).faulted w.fault).restarts = 0
    rw [hw]
    rcases w.reshape with - | (_ | _ | _ | _) <;> exact hzero
  cases op with
  | insert key value => exact hwritten _ (h.insert key value).1
  | getOrInsert key value => exact hwritten _ (h.getOrInsert key fun _ => value).1
  | remove key => exact hwritten _ (h.remove key).1
  | resetCounters => rfl
  | reverse name =>
    unfold step
    dsimp only
    cases st.cursors.find name <;> exact hzero
  | next name count =>
    unfold step
    dsimp only
    cases st.cursors.find name <;> exact hzero
  | inspectCursor name =>
    unfold step
    dsimp only
    cases st.cursors.find name <;> exact hzero
  | get key =>
    show (st.counters.faulted (st.tree.searchFault? key)).restarts = 0
    rw [h.searchFault?_eq_none]
    exact hzero
  | scan _ _ _ _ | openCursor _ _ _ | close _ | size | shape | counters | inspect => exact hzero

end State

theorem exec_restarts (ops : List (Op V)) {st : State V} {m : Dictionary V}
    (h : st.tree.Represents m) (hzero : st.counters.restarts = 0) :
    (exec st ops).counters.restarts = 0 := by
  induction ops generalizing st m with
  | nil => exact hzero
  | cons op ops ih =>
    exact ih (State.step_represents h op).1 (State.step_restarts h.valid hzero op)

/-- However a tree was changed before, starting empty, nothing stands in the way of the next
    operation, and no operation ever had to start again. -/
theorem exec_unobstructed (ops : List (Op V)) :
    (exec (start : State V) ops).tree.Unobstructed ∧
      (exec (start : State V) ops).counters.restarts = 0 := by
  have hstart : (start : State V).tree.Represents ∅ := Tree.Represents.empty
  obtain ⟨m, h⟩ := exec_represents ops hstart
  exact ⟨h.unobstructed, exec_restarts ops hstart rfl⟩

/-! ### The width of a stem's length -/

/-- The key that a step stores, if it stores one. -/
def Op.stored? : Op V → Option Key
  | .insert key _ | .getOrInsert key _ => some key
  | _ => none

theorem mem_keys_step {m : Dictionary V} {op : Op V} {k : Key} (h : k ∈ (m.step op).1.keys) :
    k ∈ m.keys ∨ op.stored? = some k := by
  have hinsert : ∀ key (value : V), k ∈ (m.insert key value).keys →
      k ∈ m.keys ∨ some key = some k := by
    intro key value hk
    rw [Dictionary.keys_insert, Finset.mem_insert] at hk
    exact hk.symm.imp_right fun hkey => congrArg some hkey.symm
  cases op with
  | insert key value => exact hinsert key value h
  | getOrInsert key value =>
    unfold Dictionary.step at h
    dsimp only at h
    split at h
    · exact Or.inl h
    · exact hinsert key value h
  | remove key =>
    have h : k ∈ (m.erase key).keys := h
    rw [Finmap.keys_erase] at h
    exact Or.inl (Finset.mem_of_mem_erase h)
  | get _ | scan _ _ _ _ | openCursor _ _ _ | reverse _ | next _ _ | close _ | inspectCursor _
  | size | shape | counters | resetCounters | inspect => exact Or.inl h

/-- What holds of the keys that a script stores holds of the keys that are stored. -/
theorem exec_keys {P : Key → Prop} (ops : List (Op V)) {st : State V} {m : Dictionary V}
    (h : st.tree.Represents m) (hm : ∀ k ∈ m.keys, P k)
    (hops : ∀ op ∈ ops, ∀ k ∈ op.stored?, P k) :
    ∃ m', (exec st ops).tree.Represents m' ∧ ∀ k ∈ m'.keys, P k := by
  induction ops generalizing st m with
  | nil => exact ⟨m, h, hm⟩
  | cons op ops ih =>
    refine ih (State.step_represents h op).1 (fun k hk => ?_) fun o ho =>
      hops o (List.mem_cons_of_mem _ ho)
    rcases mem_keys_step hk with hold | hstored
    · exact hm k hold
    · exact hops op List.mem_cons_self k hstored

/-- As long as a script stores keys shorter than `2 ^ 32` only, the length of every stem fits into 32
    bits. -/
theorem exec_stem_fits (ops : List (Op V))
    (hops : ∀ op ∈ ops, ∀ k ∈ op.stored?, k.length < 2 ^ 32) {n : Inner V} {q : Key}
    (hreach : (exec start ops).tree.root.Reaches [] n q) :
    n.stem.length.toUInt32.toNat = n.stem.length := by
  have hstart : (start : State V).tree.Represents ∅ := Tree.Represents.empty
  obtain ⟨m, h, hkeys⟩ := exec_keys ops hstart (P := fun k => k.length < 2 ^ 32) (by simp) hops
  have hlt : n.stem.length < 2 ^ 32 := by
    rcases Nat.eq_zero_or_pos n.stem.length with hzero | hpos
    · omega
    · obtain ⟨key, hkey, hle⟩ := h.unobstructed.stems n q hreach hpos
      rw [h.get?_eq, ← Dictionary.mem_keys_iff] at hkey
      have hlength := hkeys key hkey
      omega
  exact UInt32.toNat_ofNat_of_lt' hlt

end TreeScript

end RadixStore
