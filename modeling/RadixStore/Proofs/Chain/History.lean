import Mathlib
import RadixStore.Proofs.Chain.Install

/-!
# Histories and drafts

The committed versions of a key are its history: each ends where the next newer one begins, and the
newest never ends. In front of the history stands at most one draft, the pending version of an open
transaction, which holds the newest committed version as well. Every operation on a chain is
described by what it makes of the draft and of the history.
-/

namespace RadixStore

variable {V : Type}

/-! ### Histories -/

/-- Committed versions, newest first, that nobody holds; the newest one ends at `fin`. -/
inductive History : Timestamp → List (Version V) → Prop
  | nil {fin : Timestamp} : History fin []
  | cons {fin : Timestamp} {v : Version V} {older : List (Version V)} : v.committed = true →
      v.holder = none → v.endTs = fin → (∀ w ∈ older, w.beginTs ≤ v.beginTs) →
      History v.beginTs older → History fin (v :: older)

/-- The versions with the newest one ended at `ts`. -/
def endAt (ts : Timestamp) : List (Version V) → List (Version V)
  | [] => []
  | v :: older => { v with endTs := ts } :: older

/-- The versions with the newest one held by `owner`. -/
def hold (owner : TxnId) : List (Version V) → List (Version V)
  | [] => []
  | v :: older => { v with holder := some owner } :: older

namespace History

variable {fin ts : Timestamp} {hist : List (Version V)} {v : Version V}

theorem committed (h : History fin hist) (hv : v ∈ hist) : v.committed = true := by
  induction h with
  | nil => simp at hv
  | cons hcommitted _ _ _ _ ih =>
    rcases List.mem_cons.1 hv with rfl | hv
    · exact hcommitted
    · exact ih hv

theorem released (h : History fin hist) (hv : v ∈ hist) : v.holder = none := by
  induction h with
  | nil => simp at hv
  | cons _ hreleased _ _ _ ih =>
    rcases List.mem_cons.1 hv with rfl | hv
    · exact hreleased
    · exact ih hv

theorem isSettledBy_iff (h : History fin hist) (hv : v ∈ hist) :
    v.isSettledBy ts = true ↔ v.beginTs ≤ ts := by
  simp [Version.isSettledBy, h.committed hv]

theorem endAt (h : History fin hist) (ts : Timestamp) : History ts (endAt ts hist) := by
  cases h with
  | nil => exact .nil
  | cons hcommitted hreleased _ hbegins holder =>
    exact .cons hcommitted hreleased rfl hbegins holder

theorem supersede (h : History fin hist) {n : Version V} (hcommitted : n.committed = true)
    (hreleased : n.holder = none) (hbegin : ∀ head ∈ hist.head?, head.beginTs ≤ n.beginTs) :
    History n.endTs (n :: RadixStore.endAt n.beginTs hist) := by
  refine .cons hcommitted hreleased rfl ?_ (h.endAt _)
  cases h with
  | nil => simp [RadixStore.endAt]
  | @cons v older _ _ _ _ hbegins =>
    have hhead := hbegin _ rfl
    intro w hw
    rcases List.mem_cons.1 hw with rfl | hw
    · exact hhead
    · exact (hbegins w hw).trans hhead

end History

/-! ### Reading a list of versions -/

namespace Chain

variable {ts : Timestamp} {reader : TxnId} {l newer older : List (Version V)} {x : Version V}

theorem lookIn_append (hnewer : ∀ v ∈ newer, v.isSettledBy ts = false)
    (hx : x.isSettledBy ts = true) :
    lookIn ts reader (newer ++ x :: older) =
      (sightOf x ts reader, newer ++ { x with stamp := x.stamp.observe ts reader } :: older) := by
  induction newer with
  | nil => simp [lookIn, hx]
  | cons v newer ih =>
    have hv : v.isSettledBy ts = false := hnewer v (by simp)
    have hrest := ih fun w hw => hnewer w (by simp [hw])
    simp [lookIn, hv, hrest]

theorem lookIn_of_unsettled (h : ∀ v ∈ l, v.isSettledBy ts = false) :
    lookIn ts reader l = (.absent, l) := by
  induction l with
  | nil => rfl
  | cons v l ih =>
    have hrest := ih fun w hw => h w (by simp [hw])
    simp [lookIn, h v (by simp), hrest]

/-- Either no version is settled by a timestamp, or there is a first one. -/
theorem exists_settled (ts : Timestamp) (l : List (Version V)) :
    (∀ v ∈ l, v.isSettledBy ts = false) ∨
      ∃ newer x older, l = newer ++ x :: older ∧ (∀ v ∈ newer, v.isSettledBy ts = false) ∧
        x.isSettledBy ts = true := by
  cases hfind : l.find? fun v => v.isSettledBy ts with
  | none => exact Or.inl (by simpa using hfind)
  | some x =>
    obtain ⟨hx, newer, older, rfl, hnewer⟩ := List.find?_eq_some_iff_append.1 hfind
    exact Or.inr ⟨newer, x, older, rfl, by simpa using hnewer, hx⟩

/-- Who finds nothing sees no settled version. -/
theorem unsettled_of_lookIn (h : (lookIn ts reader l).1 = .absent) :
    ∀ v ∈ l, v.isSettledBy ts = false := by
  rcases exists_settled ts l with hnone | ⟨newer, x, older, rfl, hnewer, hx⟩
  · exact hnone
  · rw [lookIn_append hnewer hx] at h
    unfold sightOf at h
    split at h
    · cases h
    · split at h <;> cases h

/-- A read changes nothing but a stamp. -/
theorem map_lookIn {α : Type} {f : Version V → α} (hf : ∀ v stamp, f { v with stamp := stamp } = f v)
    (ts : Timestamp) (reader : TxnId) (l : List (Version V)) :
    (lookIn ts reader l).2.map f = l.map f := by
  induction l with
  | nil => rfl
  | cons v l ih =>
    by_cases hv : v.isSettledBy ts = true
    · simp [lookIn, hv, hf]
    · simp [lookIn, hv, ih]

theorem map_serial_lookIn (ts : Timestamp) (reader : TxnId) (l : List (Version V)) :
    (lookIn ts reader l).2.map Version.serial = l.map Version.serial :=
  map_lookIn (fun _ _ => rfl) ts reader l

theorem map_beginTs_lookIn (ts : Timestamp) (reader : TxnId) (l : List (Version V)) :
    (lookIn ts reader l).2.map Version.beginTs = l.map Version.beginTs :=
  map_lookIn (fun _ _ => rfl) ts reader l

/-- What begins when is all that counts for a bound on the beginnings. -/
theorem forall_beginTs_of_map_eq {P : Timestamp → Prop} {l' : List (Version V)}
    (hsame : l'.map Version.beginTs = l.map Version.beginTs) (h : ∀ w ∈ l, P w.beginTs) :
    ∀ w ∈ l', P w.beginTs := by
  have hall : ∀ b ∈ l.map Version.beginTs, P b := by simpa using h
  rw [← hsame] at hall
  simpa using hall

theorem lookIn_history {fin : Timestamp} (h : History fin l) (ts : Timestamp) (reader : TxnId) :
    History fin (lookIn ts reader l).2 := by
  induction h with
  | nil => exact .nil
  | @cons _ v older hcommitted hreleased hend hbegins holder ih =>
    by_cases hv : v.isSettledBy ts = true
    · simp only [lookIn, hv, if_true]
      exact .cons hcommitted hreleased hend hbegins holder
    · simp only [lookIn, hv, if_false, Bool.false_eq_true]
      refine .cons hcommitted hreleased hend ?_ ih
      exact forall_beginTs_of_map_eq (P := fun b => b ≤ v.beginTs)
        (map_beginTs_lookIn ts reader older) hbegins

end Chain

/-! ### Drafts -/

/-- A pending version in front of a history. -/
structure Draft (V : Type) where
  owner : TxnId
  serial : Serial
  value : V
deriving DecidableEq, Repr

/-- The version that a draft becomes when it is committed at `ts`. -/
def Draft.published (d : Draft V) (ts : Timestamp) : Version V :=
  ⟨d.serial, none, .fresh, ts, infinity, true, d.value⟩

/-- The versions of a chain with a history and perhaps a draft. -/
def layout (draft : Option (Draft V)) (hist : List (Version V)) : List (Version V) :=
  match draft with
  | none => hist
  | some d => .pending d.serial (some d.owner) d.value :: hold d.owner hist

/-- By these names a transaction finds the draft and the version it is to supersede again. -/
def installedOn (serial : Serial) (hist : List (Version V)) : Installed :=
  ⟨serial, hist.head?.map Version.serial⟩

namespace Chain

/-- The chain consists of this draft, if any, and this history; serial numbers descend. -/
structure Shape (c : Chain V) (draft : Option (Draft V)) (hist : List (Version V)) : Prop where
  versions_eq : c.versions = layout draft hist
  history : History infinity hist
  serials : (c.nextSerial :: c.versions.map Version.serial).Pairwise (· > ·)

variable {c c' : Chain V} {draft : Option (Draft V)} {d : Draft V} {hist : List (Version V)}
  {ts : Timestamp} {id : TxnId} {i : Installed} {value : V}

theorem shape_empty : (empty : Chain V).Shape none [] :=
  ⟨rfl, .nil, by simp [empty]⟩

@[simp] theorem isSettledBy_pending (serial : Serial) (holder : Option TxnId) (value : V) :
    (Version.pending serial holder value).isSettledBy ts = false := rfl

@[simp] theorem map_serial_hold (owner : TxnId) (hist : List (Version V)) :
    (hold owner hist).map Version.serial = hist.map Version.serial := by
  cases hist <;> rfl

@[simp] theorem map_serial_endAt (ts : Timestamp) (hist : List (Version V)) :
    (endAt ts hist).map Version.serial = hist.map Version.serial := by
  cases hist <;> rfl

/-! ### What the operations make of draft and history -/

theorem lookIn_layout (draft : Option (Draft V)) (hist : List (Version V)) :
    (lookIn ts id (layout draft hist)).2 = layout draft (lookIn ts id hist).2 := by
  cases draft with
  | none => rfl
  | some d =>
    cases hist with
    | nil => rfl
    | cons v older =>
      by_cases hv : v.isSettledBy ts = true
      · have hheld : ({ v with holder := some d.owner } : Version V).isSettledBy ts = true := hv
        simp [layout, lookIn, hold, hv, hheld]
      · have hv : v.isSettledBy ts = false := by simpa using hv
        have hheld : ({ v with holder := some d.owner } : Version V).isSettledBy ts = false := hv
        simp [layout, lookIn, hold, hv, hheld]

theorem unsettled_layout_iff :
    (∀ v ∈ layout draft hist, v.isSettledBy ts = false) ↔ ∀ v ∈ hist, v.isSettledBy ts = false := by
  cases draft with
  | none => rfl
  | some d => cases hist <;> simp [layout, hold, Version.isSettledBy, Version.pending]

theorem Shape.look (h : c.Shape draft hist) (ts : Timestamp) (id : TxnId) :
    (c.look ts id).2.Shape draft (lookIn ts id hist).2 := by
  refine ⟨?_, lookIn_history h.history ts id, ?_⟩
  · show (lookIn ts id c.versions).2 = _
    rw [h.versions_eq, lookIn_layout]
  · show (c.nextSerial :: (lookIn ts id c.versions).2.map Version.serial).Pairwise _
    rw [map_serial_lookIn]
    exact h.serials

/-- The newest version of a history with the next serial number in front of it. -/
theorem Shape.pairwise_next (h : c.Shape draft hist) :
    (c.nextSerial :: hist.map Version.serial).Pairwise (· > ·) := by
  have hs := h.serials
  rw [h.versions_eq] at hs
  cases draft with
  | none => exact hs
  | some d =>
    have hs : (c.nextSerial :: d.serial :: (hold d.owner hist).map Version.serial).Pairwise
        (· > ·) := hs
    rw [map_serial_hold] at hs
    exact hs.sublist (by simp)

theorem Shape.redraft (h : c.Shape draft hist) (owner : TxnId) (value : V) :
    (⟨layout (some ⟨owner, c.nextSerial, value⟩) hist, c.nextSerial + 1⟩ : Chain V).Shape
      (some ⟨owner, c.nextSerial, value⟩) hist := by
  refine ⟨rfl, h.history, ?_⟩
  have hs := h.pairwise_next
  show ((c.nextSerial + 1) :: c.nextSerial :: (hold owner hist).map Version.serial).Pairwise _
  rw [map_serial_hold]
  refine List.pairwise_cons.2 ⟨?_, hs⟩
  intro s hmem
  rcases List.mem_cons.1 hmem with rfl | hmem
  · exact Nat.lt_succ_self _
  · exact ((List.pairwise_cons.1 hs).1 s hmem).trans (Nat.lt_succ_self _)

/-- A write is admitted when there is no draft and the newest version was neither committed nor read
    too late. -/
theorem Shape.install (h : c.Shape draft hist) (readTs : Timestamp)
    (hok : c.install id readTs value = .ok (c', i)) :
    draft = none ∧ i = installedOn c.nextSerial hist ∧
      c' = ⟨layout (some ⟨id, c.nextSerial, value⟩) hist, c.nextSerial + 1⟩ ∧
      ∀ head ∈ hist.head?, head.stamp.admits readTs id = true ∧ head.beginTs ≤ readTs := by
  have hversions := h.versions_eq
  rw [Chain.install_eq] at hok
  cases draft with
  | some d =>
    rw [hversions] at hok
    simp [layout, Version.pending] at hok
  | none =>
    have hversions : c.versions = hist := hversions
    rw [hversions] at hok
    cases hist with
    | nil =>
      obtain ⟨rfl, rfl⟩ := Prod.mk.inj (Except.ok.inj hok)
      exact ⟨rfl, rfl, rfl, by simp⟩
    | cons head older =>
      have hreleased : head.holder = none := h.history.released (by simp)
      simp only [hreleased, Option.isSome_none, Bool.false_eq_true, if_false] at hok
      split at hok
      · rename_i hadmits
        obtain ⟨rfl, rfl⟩ := Prod.mk.inj (Except.ok.inj hok)
        refine ⟨rfl, rfl, rfl, ?_⟩
        intro first hfirst
        cases hfirst
        simpa using hadmits
      · cases hok

/-- The draft has another serial number than any version of the history. -/
theorem Shape.serial_lt (h : c.Shape (some d) hist) :
    ∀ v ∈ hist, v.serial < d.serial := by
  have hs := (List.pairwise_cons.1 h.serials).2
  rw [h.versions_eq] at hs
  have hs : (d.serial :: (hold d.owner hist).map Version.serial).Pairwise (· > ·) := hs
  rw [map_serial_hold] at hs
  intro v hv
  exact (List.pairwise_cons.1 hs).1 _ (List.mem_map_of_mem hv)

theorem Shape.since (h : c.Shape (some d) hist) :
    c.since (installedOn d.serial hist).prior = hold d.owner hist := by
  cases hist with
  | nil => rfl
  | cons head older =>
    have hne := ne_of_gt (h.serial_lt head (by simp))
    have hversions := h.versions_eq
    simp [installedOn, Chain.since, hversions, layout, hold, Version.pending, hne]

theorem Shape.supersede (h : c.Shape (some d) hist) (value : V) :
    c.supersede (installedOn d.serial hist) value =
      some (⟨layout (some ⟨d.owner, c.nextSerial, value⟩) hist, c.nextSerial + 1⟩,
        installedOn c.nextSerial hist) := by
  have hsince := h.since
  have hversions := h.versions_eq
  unfold Chain.supersede
  rw [hversions, hsince]
  simp [layout, installedOn, Version.pending]

theorem Shape.nodup_serials (h : c.Shape draft hist) : (c.versions.map Version.serial).Nodup :=
  (List.pairwise_cons.1 h.serials).2.imp ne_of_gt

theorem Shape.serial_lt_next (h : c.Shape draft hist) :
    ∀ v ∈ c.versions, v.serial < c.nextSerial := by
  intro v hv
  exact (List.pairwise_cons.1 h.serials).1 _ (List.mem_map_of_mem hv)

/-- In a history the first version alone has the serial number of the first one. -/
theorem Shape.serial_ne (h : c.Shape draft hist) {head v : Version V}
    {older : List (Version V)} (hhist : hist = head :: older) (hv : v ∈ older) :
    v.serial ≠ head.serial := by
  have hs := (List.pairwise_cons.1 h.pairwise_next).2
  rw [hhist, List.map_cons] at hs
  exact ne_of_lt ((List.pairwise_cons.1 hs).1 _ (List.mem_map_of_mem hv))

theorem Shape.commit (h : c.Shape (some d) hist) (ts : Timestamp) :
    c.commit (installedOn d.serial hist) ts = ⟨d.published ts :: endAt ts hist, c.nextSerial⟩ := by
  show (⟨c.versions.map (commitVersion _ ts), c.nextSerial⟩ : Chain V) = _
  rw [h.versions_eq]
  cases hist with
  | nil => simp [layout, hold, endAt, commitVersion, installedOn, Version.pending, Draft.published]
  | cons head older =>
    have hhead := ne_of_lt (h.serial_lt head (by simp))
    have holder : ∀ v ∈ older, commitVersion (installedOn d.serial (head :: older)) ts v = v := by
      intro v hv
      have hdraft := ne_of_lt (h.serial_lt v (by simp [hv]))
      have hprior := h.serial_ne rfl hv
      simp [commitVersion, installedOn, hdraft, hprior]
    have hreleased : head.holder = none := h.history.released (by simp)
    have hmap := List.map_congr_left holder
    rw [List.map_id'] at hmap
    simp only [layout, hold, List.map_cons, hmap]
    simp [endAt, commitVersion, installedOn, Version.pending, Draft.published, hhead, hreleased]

theorem Shape.published (h : c.Shape (some d) hist) (ts : Timestamp)
    (hbegin : ∀ head ∈ hist.head?, head.beginTs ≤ ts) :
    (⟨d.published ts :: endAt ts hist, c.nextSerial⟩ : Chain V).Shape none
      (d.published ts :: endAt ts hist) := by
  refine ⟨rfl, h.history.supersede (n := d.published ts) rfl rfl hbegin, ?_⟩
  have hs := h.serials
  rw [h.versions_eq] at hs
  simpa [layout, Version.pending, Draft.published] using hs

/-- Aborting takes the draft out and leaves the history, released. -/
theorem Shape.abort? (h : c.Shape (some d) hist) :
    c.abort? (installedOn d.serial hist) = some ⟨hist, c.nextSerial⟩ := by
  have hnewest : c.isNewest (installedOn d.serial hist).node = true := by
    simp [isNewest, h.versions_eq, layout, installedOn, Version.pending]
  have hsince := h.since
  unfold Chain.abort?
  rw [if_pos hnewest]
  show some (⟨(c.since _).map (abortVersion _), c.nextSerial⟩ : Chain V) = _
  rw [hsince]
  cases hist with
  | nil => rfl
  | cons head older =>
    have holder : ∀ v ∈ older, abortVersion (installedOn d.serial (head :: older)) v = v := by
      intro v hv
      have hprior := h.serial_ne rfl hv
      simp [abortVersion, installedOn, hprior]
    have hreleased : head.holder = none := h.history.released (by simp)
    have hmap := List.map_congr_left holder
    rw [List.map_id'] at hmap
    simp only [hold, List.map_cons, hmap]
    simp only [abortVersion, installedOn, Version.release, List.head?_cons, Option.map_some,
      if_true, ← hreleased]

theorem Shape.abort (h : c.Shape (some d) hist) :
    c.abort (installedOn d.serial hist) = ⟨hist, c.nextSerial⟩ := by
  unfold Chain.abort
  rw [h.abort?]
  rfl

theorem Shape.undrafted (h : c.Shape draft hist) :
    (⟨hist, c.nextSerial⟩ : Chain V).Shape none hist :=
  ⟨rfl, h.history, h.pairwise_next⟩

end Chain

end RadixStore
