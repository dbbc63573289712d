import Mathlib
import RadixStore.Proofs.Cursor.Map
import RadixStore.Proofs.Cursor.Run
import RadixStore.Proofs.Store.Places
import RadixStore.Proofs.Tree.Leaves

/-!
# Reading key after key

A scan is as good as reads of single keys. What it has come to is known from outside by its range, its
direction, the key that it came to last and whether it has ended. To ask for the next item is to take
all keys of the store that lie ahead, in the order of the scan, and to read one after the other until
one shows.
-/

namespace RadixStore

variable {V W : Type}

/-! ### How far a scan has come -/

/-- The range and the direction of a scan, the key that it came to last, and whether it has ended. -/
structure Progress where
  dir : Direction
  lower : Option Key
  upper : Option Key
  last : Option Key
  ended : Bool
deriving DecidableEq, Repr

namespace Progress

/-- A scan that has not set out yet. -/
def start (dir : Direction) (lower upper : Option Key) : Progress :=
  ⟨dir, lower, upper, none, false⟩

/-- Whether the key lies in the range, from which the bound is left out where the scan sets out. -/
def covers (p : Progress) (key : Key) : Bool :=
  match p.dir with
  | .forward => p.lower.all (fun b => b < key) && p.upper.all fun b => !(b < key : Bool)
  | .backward => p.upper.all (fun b => key < b) && p.lower.all fun b => !(key < b : Bool)

/-- Whether the key lies in the range and strictly past the last one. -/
def isAhead (p : Progress) (key : Key) : Bool :=
  p.covers key && p.last.all fun last => p.dir.isPast last key

/-- What lies past a key ahead lies ahead. -/
theorem isAhead_past {p : Progress} {first : Key} (h : p.isAhead first = true) (key : Key) :
    ({ p with last := some first } : Progress).isAhead key =
      (p.dir.isPast first key && p.isAhead key) := by
  obtain ⟨-, hfirst⟩ := Bool.and_eq_true_iff.1 h
  show (p.covers key && p.dir.isPast first key) = (p.dir.isPast first key &&
    (p.covers key && p.last.all fun last => p.dir.isPast last key))
  cases hpast : p.dir.isPast first key with
  | false => rw [Bool.and_false, Bool.false_and]
  | true =>
    have hlast : (p.last.all fun last => p.dir.isPast last key) = true := by
      cases hl : p.last with
      | none => rfl
      | some last =>
        rw [hl] at hfirst
        exact Direction.isPast_trans hfirst hpast
    rw [hlast, Bool.true_and]

end Progress

/-- What reading key after key comes to. -/
structure Reading (V : Type) where
  item : Option (ScanItem V)
  /-- The last key that was read, or the one before. -/
  last : Option Key
  store : Store V

/-- The progress after the next item; there is none at the end. -/
def Progress.after (p : Progress) (r : Reading V) : Progress :=
  { p with last := r.last, ended := r.item.isNone }

namespace Store

/-- Every key that was ever written, ascending. -/
def keys (s : Store V) : List Key :=
  s.index.leaves.map Leaf.key

/-- The keys in the order in which a scan comes to them. -/
def inOrder (s : Store V) : Direction → List Key
  | .forward => s.keys
  | .backward => s.keys.reverse

/-- The keys that lie ahead, in the order of the scan. -/
def keysAhead (s : Store V) (p : Progress) : List Key :=
  (s.inOrder p.dir).filter p.isAhead

/-- Read one key after the other until one shows. -/
def readKeys (t : Txn V) : List Key → Option Key → Store V → Reading V
  | [], last, s => ⟨none, last, s⟩
  | key :: keys, _, s =>
    match s.get t key with
    | (.ok value, s) => ⟨some (.ok (key, value)), some key, s⟩
    | (.error .absent, s) => readKeys t keys (some key) s
    | (.error e, s) => ⟨some (.error e), some key, s⟩

/-- The next item of a scan of `t`, by reading the keys that lie ahead. A scan that has come to its
    end has none. -/
def readOn (s : Store V) (t : Txn V) (p : Progress) : Reading V :=
  if p.ended then ⟨none, p.last, s⟩ else readKeys t (s.keysAhead p) p.last s

variable {s s' : Store V} {t : Txn V} {p : Progress} {key : Key}

theorem readKeys_cons (t : Txn V) (key : Key) (keys : List Key) (last : Option Key) (s : Store V) :
    readKeys t (key :: keys) last s =
      match shown key (s.get t key).1 with
      | some item => ⟨some item, some key, (s.get t key).2⟩
      | none => readKeys t keys (some key) (s.get t key).2 := by
  rw [readKeys]
  rcases s.get t key with ⟨value | e, s'⟩
  · cases value <;> rfl
  · rfl

/-! ### The keys that lie ahead -/

/-- The keys of a store are known from its places. -/
theorem keys_eq_of_places (h : s'.places = s.places) : s'.keys = s.keys := by
  have hkeys : ∀ r : Store V, r.keys = r.places.leaves.map Leaf.key := by
    intro r
    unfold keys places
    rw [Tree.leaves_map, List.map_map]
    rfl
  rw [hkeys, hkeys, h]

theorem keysAhead_eq_of_places (h : s'.places = s.places) (p : Progress) :
    s'.keysAhead p = s.keysAhead p := by
  unfold keysAhead
  cases p.dir with
  | forward => exact congrArg (List.filter p.isAhead) (keys_eq_of_places h)
  | backward => exact congrArg (fun ks => List.filter p.isAhead ks.reverse) (keys_eq_of_places h)

theorem mem_keys_iff (hs : s.index.Valid) : key ∈ s.keys ↔ (s.chain? key).isSome := by
  unfold keys
  rw [List.mem_map, Option.isSome_iff_exists]
  constructor
  · rintro ⟨l, hl, rfl⟩
    exact ⟨l.value, hs.get?_eq_some_iff.2 ((Branch.Valid.mem_leaves_iff hs l).1 hl)⟩
  · rintro ⟨c, hc⟩
    exact ⟨⟨key, c⟩, (Branch.Valid.mem_leaves_iff hs _).2 (hs.get?_eq_some_iff.1 hc), rfl⟩

theorem mem_keysAhead_iff (hs : s.index.Valid) :
    key ∈ s.keysAhead p ↔ (s.chain? key).isSome ∧ p.isAhead key = true := by
  unfold keysAhead
  rw [← mem_keys_iff hs, List.mem_filter]
  cases p.dir with
  | forward => exact Iff.rfl
  | backward => exact and_congr_left' List.mem_reverse

/-- The keys ahead come one after the other. -/
theorem keysAhead_pairwise (hs : s.index.Valid) (p : Progress) :
    (s.keysAhead p).Pairwise fun a b => p.dir.isPast a b = true := by
  have hascend : s.keys.Pairwise (· < ·) := Tree.Valid.keys_ascend hs
  refine List.Pairwise.filter _ ?_
  cases p.dir with
  | forward => exact hascend.imp fun hlt => decide_eq_true hlt
  | backward => exact List.pairwise_reverse.2 (hascend.imp fun hlt => decide_eq_true hlt)

/-- What lies ahead of the first key is the rest. -/
theorem keysAhead_cons (hs : s.index.Valid) {first : Key} (hmem : first ∈ s.keysAhead p)
    (hleast : ∀ key ∈ s.keysAhead p, key = first ∨ p.dir.isPast first key = true) :
    s.keysAhead p = first :: s.keysAhead { p with last := some first } := by
  have hpairwise := keysAhead_pairwise hs p
  have hfilter : s.keysAhead { p with last := some first } =
      (s.keysAhead p).filter fun key => p.dir.isPast first key := by
    have hahead := Progress.isAhead_past ((mem_keysAhead_iff hs).1 hmem).2
    unfold keysAhead
    rw [List.filter_filter, List.filter_congr fun key _ => hahead key]
  rw [hfilter]
  cases hlist : s.keysAhead p with
  | nil =>
    rw [hlist] at hmem
    cases hmem
  | cons x xs =>
    rw [hlist] at hmem hleast hpairwise
    obtain ⟨hpast, -⟩ := List.pairwise_cons.1 hpairwise
    have hx : x = first := by
      rcases hleast x List.mem_cons_self with rfl | hx
      · rfl
      · rcases List.mem_cons.1 hmem with rfl | hfirst
        · rfl
        · have hback := hpast first hfirst
          rw [Direction.isPast_asymm hx] at hback
          cases hback
    subst hx
    rw [List.filter_cons_of_neg (by rw [Direction.isPast_irrefl]; exact Bool.false_ne_true),
      List.filter_eq_self.2 hpast]

end Store

/-! ### Cursors -/

namespace Cursor

variable {c : Cursor} {t : Tree V} {key : Key}

/-- What is known of a cursor from outside. -/
def progress (c : Cursor) : Progress :=
  ⟨c.dir, c.lower, c.upper, c.last, c.done⟩

/-- The key that was yielded last lies past the bound at which the cursor set out. -/
def PastStart (c : Cursor) : Prop :=
  ∀ key, c.last = some key → c.dir.Follows c.setOut key

theorem covers_progress_iff (c : Cursor) (key : Key) :
    c.progress.covers key = true ↔ c.dir.Follows c.setOut key ∧ c.isBeyond key = false := by
  obtain ⟨lower, upper, dir, stack, last, started, done⟩ := c
  cases dir <;> cases lower <;> cases upper <;>
    simp [progress, Progress.covers, setOut, isBeyond, stop, Direction.Follows, Direction.isPast]

/-- Ahead of a cursor lies what it is to yield. -/
theorem isAhead_progress_iff (h : c.PastStart) (key : Key) :
    c.progress.isAhead key = true ↔
      c.dir.Follows c.resumeBound key ∧ c.isBeyond key = false := by
  unfold Progress.isAhead
  rw [Bool.and_eq_true, covers_progress_iff]
  cases hlast : c.last with
  | none =>
    have hbound : c.resumeBound = c.setOut := by
      unfold resumeBound
      rw [hlast]
      rfl
    have hall : (c.progress.last.all fun last => c.progress.dir.isPast last key) = true := by
      show (c.last.all _) = true
      rw [hlast]
      rfl
    rw [hbound, hall, eq_self, and_true]
  | some last =>
    have hall : (c.progress.last.all fun last => c.progress.dir.isPast last key) =
        c.dir.isPast last key := by
      show (c.last.all _) = _
      rw [hlast]
      rfl
    rw [resumeBound_of_last hlast, hall]
    constructor
    · rintro ⟨⟨-, hbeyond⟩, hpast⟩
      exact ⟨hpast, hbeyond⟩
    · rintro ⟨hpast, hbeyond⟩
      exact ⟨⟨(h last hlast).trans hpast, hbeyond⟩, hpast⟩

theorem progress_next (hdone : c.done = false) (t : Tree V) :
    (c.next t).cursor.progress =
      match (c.next t).item with
      | some l => { c.progress with last := some l.key }
      | none => { c.progress with ended := true } := by
  unfold Cursor.next
  rw [hdone]
  dsimp only
  rw [if_neg Bool.false_ne_true]
  have hended : c.progress.ended = false := hdone
  split
  · rfl
  · split
    · rfl
    · split
      · rfl
      · dsimp only
        rw [hended]
        rfl

theorem PastStart.next (h : c.PastStart) (hexact : c.Exact t (c.next t).item)
    (hdone : c.done = false) : (c.next t).cursor.PastStart := by
  obtain ⟨hdir, hlower, hupper, hitem⟩ := c.next_cursor t
  have hprogress := progress_next hdone t
  have hsetOut : (c.next t).cursor.setOut = c.setOut := by
    unfold setOut
    rw [hdir, hlower, hupper]
  intro key hkey
  rw [hdir, hsetOut]
  cases hi : (c.next t).item with
  | none =>
    rw [hi] at hprogress
    have hlast : (c.next t).cursor.last = c.last := congrArg Progress.last hprogress
    exact h key (hlast ▸ hkey)
  | some l =>
    rw [hi] at hprogress hexact
    have hlast : (c.next t).cursor.last = some l.key := congrArg Progress.last hprogress
    rw [hlast] at hkey
    cases hkey
    obtain ⟨-, hfollows, hbeyond, -⟩ := hexact
    have hahead := (isAhead_progress_iff h l.key).2 ⟨hfollows, hbeyond⟩
    exact ((covers_progress_iff c l.key).1 (Bool.and_eq_true_iff.1 hahead).1).1

end Cursor

namespace Store

variable {s : Store V} {t : Txn V} {c : Cursor}

/-- What a scan has in hand while it is kept open over a store. -/
structure Scannable (s : Store V) (c : Cursor) : Prop where
  sound : c.Sound s.places
  pastStart : c.PastStart

/-- A cursor over the index is as exact as one over the places. -/
theorem exact_next (hs : s.index.Valid) (hp : s.places.Valid) (hnum : s.places.Numbered)
    (h : s.Scannable c) (hdone : c.done = false) :
    c.Exact s.index (c.next s.index).item ∧ s.Scannable (c.next s.index).cursor := by
  obtain ⟨hitem, hcursor⟩ := Cursor.next_map (fun _ => ()) s.index c
  have hstored : ∀ key, (s.places.get? key).isSome = (s.index.get? key).isSome := by
    intro key
    unfold places
    rw [Tree.get?_map, Option.isSome_map]
  obtain ⟨hexact, hsound⟩ := h.sound.next hp hnum hdone
  have hitem : (c.next s.places).item = (c.next s.index).item.map (Leaf.map fun _ => ()) := hitem
  have hcursor : (c.next s.places).cursor = (c.next s.index).cursor := hcursor
  have hexact' : c.Exact s.index (c.next s.index).item := by
    rw [hitem] at hexact
    cases hi : (c.next s.index).item with
    | none =>
      rw [hi] at hexact
      exact fun key hkey => hexact key (by rw [hstored]; exact hkey)
    | some l =>
      rw [hi] at hexact
      obtain ⟨-, hfollows, hbeyond, hleast⟩ := hexact
      refine ⟨Cursor.get?_of_next hs hi, hfollows, hbeyond, ?_⟩
      exact fun key hkey => hleast key (by rw [hstored]; exact hkey)
  rw [hcursor] at hsound
  exact ⟨hexact', hsound, h.pastStart.next hexact' hdone⟩

/-- The cursor comes to the first of the keys that lie ahead. -/
theorem keysAhead_next (hs : s.index.Valid) (h : c.PastStart)
    (hexact : c.Exact s.index (c.next s.index).item) (hdone : c.done = false) :
    s.keysAhead c.progress =
      match (c.next s.index).item with
      | none => []
      | some l => l.key :: s.keysAhead (c.next s.index).cursor.progress := by
  have hprogress := Cursor.progress_next hdone s.index
  have hmem : ∀ key, key ∈ s.keysAhead c.progress ↔ (s.index.get? key).isSome ∧
      c.dir.Follows c.resumeBound key ∧ c.isBeyond key = false := by
    intro key
    rw [mem_keysAhead_iff hs, Cursor.isAhead_progress_iff h]
    rfl
  cases hi : (c.next s.index).item with
  | none =>
    rw [hi] at hexact
    refine List.eq_nil_iff_forall_not_mem.2 fun key hkey => ?_
    obtain ⟨hsome, hfollows, hbeyond⟩ := (hmem key).1 hkey
    rw [hexact key hsome hfollows] at hbeyond
    cases hbeyond
  | some l =>
    rw [hi] at hexact hprogress
    obtain ⟨hget, hfollows, hbeyond, hleast⟩ := hexact
    dsimp only at hprogress ⊢
    rw [hprogress]
    refine keysAhead_cons hs ((hmem l.key).2 ⟨by rw [hget]; rfl, hfollows, hbeyond⟩) ?_
    intro key hkey
    obtain ⟨hsome, hkfollows, -⟩ := (hmem key).1 hkey
    exact hleast key hsome hkfollows

/-- A scan reads the keys that lie ahead, one after the other, until one shows. -/
theorem scanUpTo_eq (t : Txn V) (fuel : Nat) (hs : s.index.Valid) (hp : s.places.Valid)
    (hnum : s.places.Numbered) (h : s.Scannable c) (hdone : c.done = false)
    (hfuel : (s.keysAhead c.progress).length < fuel) :
    (s.scanUpTo t fuel c).item = (readKeys t (s.keysAhead c.progress) c.last s).item ∧
      (s.scanUpTo t fuel c).store = (readKeys t (s.keysAhead c.progress) c.last s).store ∧
      (s.scanUpTo t fuel c).cursor.progress =
        c.progress.after (readKeys t (s.keysAhead c.progress) c.last s) ∧
      s.Scannable (s.scanUpTo t fuel c).cursor := by
  induction fuel generalizing s c with
  | zero => exact absurd hfuel (Nat.not_lt_zero _)
  | succ fuel ih =>
    obtain ⟨hexact, hnext⟩ := exact_next hs hp hnum h hdone
    have hahead := keysAhead_next hs h.pastStart hexact hdone
    have hprogress := Cursor.progress_next hdone s.index
    unfold scanUpTo
    dsimp only
    cases hi : (c.next s.index).item with
    | none =>
      rw [hi] at hahead hprogress
      dsimp only at hahead hprogress
      rw [hahead]
      exact ⟨rfl, rfl, hprogress, hnext⟩
    | some l =>
      rw [hi] at hahead hprogress
      dsimp only at hahead hprogress ⊢
      rw [hahead, readKeys_cons, visit_eq_get (Cursor.get?_of_next hs hi)]
      have hended : c.progress.ended = false := hdone
      cases hshown : shown l.key (s.get t l.key).1 with
      | some item =>
        refine ⟨rfl, rfl, ?_, hnext⟩
        dsimp only
        rw [hprogress, hended]
        rfl
      | none =>
        obtain ⟨hvalid, hplaces⟩ := keeps_get s t l.key hs
        have hdone' : (c.next s.index).cursor.done = false := by
          have h := congrArg Progress.ended hprogress
          exact h.trans hended
        have hlast : (c.next s.index).cursor.last = some l.key := congrArg Progress.last hprogress
        have hkeys := keysAhead_eq_of_places hplaces (c.next s.index).cursor.progress
        have hscannable : (s.get t l.key).2.Scannable (c.next s.index).cursor :=
          ⟨by rw [hplaces]; exact hnext.sound, hnext.pastStart⟩
        rw [hahead, List.length_cons] at hfuel
        have hrest := ih hvalid (by rw [hplaces]; exact hp) (by rw [hplaces]; exact hnum) hscannable
          hdone' (by rw [hkeys]; omega)
        rw [hkeys, hlast] at hrest
        obtain ⟨hitem, hstore, hafter, hcursor⟩ := hrest
        have hsame : (c.next s.index).cursor.progress.after (V := V) = c.progress.after := by
          rw [hprogress]
          rfl
        exact ⟨hitem, hstore, hafter.trans (congrFun hsame _),
          ⟨hplaces ▸ hcursor.sound, hcursor.pastStart⟩⟩

theorem length_keys (h : ∃ m, s.places.Represents m) : s.keys.length = s.size := by
  obtain ⟨m, hm⟩ := h
  have hlength := hm.length_leaves
  unfold places at hlength
  rw [Tree.leaves_map, List.length_map] at hlength
  unfold keys
  rw [List.length_map]
  exact hlength

/-- There are no more keys ahead than the store counts. -/
theorem length_keysAhead_le (h : ∃ m, s.places.Represents m) (p : Progress) :
    (s.keysAhead p).length ≤ s.size := by
  have horder : (s.inOrder p.dir).length = s.keys.length := by
    cases p.dir with
    | forward => rfl
    | backward => exact List.length_reverse
  exact ((List.length_filter_le _ _).trans horder.le).trans (length_keys h).le

/-- The next item of a scan is the one of reading on. -/
theorem scanNext_eq {L : Nat} (hs : s.index.Valid) (hp : s.places.Grown L) (h : s.Scannable c)
    (t : Txn V) :
    (s.scanNext t c).item = (s.readOn t c.progress).item ∧
      (s.scanNext t c).store = (s.readOn t c.progress).store ∧
      (s.scanNext t c).cursor.progress = c.progress.after (s.readOn t c.progress) ∧
      s.Scannable (s.scanNext t c).cursor := by
  unfold scanNext readOn
  cases hdone : c.done with
  | false =>
    have hended : c.progress.ended = false := hdone
    rw [hended, if_neg Bool.false_ne_true]
    exact scanUpTo_eq t _ hs hp.valid hp.numbered h hdone
      (Nat.lt_succ_of_le (length_keysAhead_le hp.counted c.progress))
  | true =>
    have hended : c.progress.ended = true := hdone
    have hnext := Cursor.next_of_done hdone s.index
    have hstep : s.scanUpTo t (s.size + 1) c = ⟨none, c, s⟩ := by
      unfold scanUpTo
      dsimp only
      rw [hnext]
    rw [hended, if_pos rfl, hstep]
    exact ⟨rfl, rfl, congrArg (fun b => { c.progress with ended := b }) hended, h⟩

end Store

end RadixStore
