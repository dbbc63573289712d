import Mathlib
import RadixStore.Proofs.Chain.Pinned
import RadixStore.Proofs.Chain.Timeline

/-!
# Marks

A committed version keeps its number, its beginning and its value for as long as it is linked. By
these it is told from the others over a whole run: which version is the newest, and which one a
reader comes to. Apart from commits and trimming nothing that is done to a chain changes the marks;
a commit puts one in front, and trimming leaves the newest mark and those that readers at or above
the safepoint come to. The reads that were recorded on a version stay recorded.
-/

namespace RadixStore

variable {V : Type}

/-- What a committed version keeps. -/
structure Mark (V : Type) where
  serial : Serial
  beginTs : Timestamp
  value : V
deriving DecidableEq, Repr

def Version.mark (v : Version V) : Mark V :=
  ⟨v.serial, v.beginTs, v.value⟩

theorem map_endAt {α : Type} {f : Version V → α} (hf : ∀ v ts, f { v with endTs := ts } = f v)
    (ts : Timestamp) (hist : List (Version V)) : (endAt ts hist).map f = hist.map f := by
  cases hist with
  | nil => rfl
  | cons v older => simp [endAt, hf]

theorem find?_kept {safepoint : Timestamp} {P : Version V → Bool} (l : List (Version V))
    (hP : ∀ v ∈ l, v.isSettledBy safepoint = true → P v = true) :
    (kept safepoint l).find? P = l.find? P := by
  induction l with
  | nil => rfl
  | cons v l ih =>
    rw [kept_cons]
    by_cases hv : v.isSettledBy safepoint = true
    · simp [hv, hP v (by simp) hv]
    · have hrest := ih fun w hw => hP w (by simp [hw])
      simp only [hv, Bool.false_eq_true, if_false, List.find?_cons, hrest]

namespace Chain

/-- The marks of the committed versions, newest first. -/
def marks (c : Chain V) : List (Mark V) :=
  c.timeline.map Version.mark

/-- The newest committed version. -/
def newest? (c : Chain V) : Option (Mark V) :=
  c.marks.head?

/-- The version that a reader at `ts` comes to. -/
def found? (c : Chain V) (ts : Timestamp) : Option (Mark V) :=
  c.marks.find? fun m => m.beginTs ≤ ts

variable {c c' : Chain V} {draft : Option (Draft V)} {d : Draft V} {hist : List (Version V)}
  {ts safepoint : Timestamp} {id reader : TxnId} {v value : V} {i : Installed}

theorem newest?_congr (h : c'.marks = c.marks) : c'.newest? = c.newest? := by
  rw [newest?, newest?, h]

theorem found?_congr (h : c'.marks = c.marks) (ts : Timestamp) : c'.found? ts = c.found? ts := by
  rw [found?, found?, h]

theorem marks_look (c : Chain V) (ts : Timestamp) (id : TxnId) :
    (c.look ts id).2.marks = c.marks :=
  map_timeline_congr (map_lookIn (fun _ _ => rfl) ts id c.versions)

/-- When the newest version has begun, a reader comes to that one. -/
theorem found?_of_newest (h : ∀ m ∈ c.newest?, m.beginTs ≤ ts) (hsome : c.newest?.isSome) :
    c.found? ts = c.newest? := by
  unfold newest? found? at *
  cases hmarks : c.marks with
  | nil => simp [hmarks] at hsome
  | cons m older =>
    have hbegin : m.beginTs ≤ ts := h m (by simp [hmarks])
    simp [hbegin]

theorem isSome_newest?_of_found? {m : Mark V} (h : c.found? ts = some m) : c.newest?.isSome := by
  unfold newest?
  cases hmarks : c.marks with
  | nil => simp [found?, hmarks] at h
  | cons n older => rfl

/-- Either a reader comes to no version and leaves the chain as it is, or the read is recorded on the
    version that it comes to. -/
theorem look_found (c : Chain V) (ts : Timestamp) (reader : TxnId) :
    (c.found? ts = none ∧ c.look ts reader = (.absent, c)) ∨
      ∃ newer x older, c.versions = newer ++ x :: older ∧ c.found? ts = some x.mark ∧
        c.look ts reader = (sightOf x ts reader,
          ⟨newer ++ { x with stamp := x.stamp.observe ts reader } :: older, c.nextSerial⟩) := by
  have hunfound : ∀ l : List (Version V), (∀ w ∈ l, w.isSettledBy ts = false) →
      (l.filter Version.committed).find?
        ((fun m : Mark V => decide (m.beginTs ≤ ts)) ∘ Version.mark) = none := by
    intro l hl
    refine List.find?_eq_none.2 ?_
    intro w hw
    obtain ⟨hmem, hcommitted⟩ := List.mem_filter.1 hw
    have hunsettled := hl w hmem
    simp only [Version.isSettledBy, hcommitted, Bool.true_and] at hunsettled
    exact ne_true_of_eq_false hunsettled
  rcases exists_settled ts c.versions with hnone | ⟨newer, x, older, hversions, hnewer, hx⟩
  · refine Or.inl ⟨?_, ?_⟩
    · rw [found?, marks, timeline, List.find?_map, hunfound _ hnone]
      rfl
    · unfold Chain.look
      rw [lookIn_of_unsettled hnone]
  · obtain ⟨hcommitted, hbegin⟩ : x.committed = true ∧ x.beginTs ≤ ts := by
      simpa [Version.isSettledBy] using hx
    refine Or.inr ⟨newer, x, older, hversions, ?_, ?_⟩
    · rw [found?, marks, timeline_of_versions hversions hcommitted, List.find?_map,
        List.find?_append, hunfound _ hnewer]
      simp [Version.mark, hbegin]
    · unfold Chain.look
      rw [hversions, lookIn_append hnewer hx]

/-- Whoever is shown a value comes to a version that has it. -/
theorem found?_of_look (h : (c.look ts reader).1 = .value v) :
    ∃ m, c.found? ts = some m ∧ m.value = v := by
  rcases c.look_found ts reader with ⟨-, hlook⟩ | ⟨newer, x, older, -, hfound, hlook⟩
  · rw [hlook] at h
    cases h
  · refine ⟨x.mark, hfound, ?_⟩
    rw [hlook] at h
    have h : sightOf x ts reader = .value v := h
    unfold sightOf at h
    split at h
    · cases h
    · split at h
      · cases h
      · exact Sight.value.inj h

/-! ### Marks of a history -/

theorem Shape.marks_eq (h : c.Shape draft hist) : c.marks = hist.map Version.mark :=
  h.map_timeline fun _ _ => rfl

theorem Shape.newest?_eq (h : c.Shape draft hist) : c.newest? = hist.head?.map Version.mark := by
  rw [newest?, h.marks_eq, List.head?_map]

theorem Shape.prior_eq (h : c.Shape draft hist) (serial : Serial) :
    (installedOn serial hist).prior = c.newest?.map Mark.serial := by
  rw [h.newest?_eq, Option.map_map]
  rfl

theorem Shape.newest?_pruned (h : c.Shape draft hist) :
    (c.pruned safepoint).newest? = c.newest? := by
  rw [h.newest?_eq, h.pruned.newest?_eq, head?_kept]

theorem Shape.found?_pruned (h : c.Shape draft hist) (hle : safepoint ≤ ts) :
    (c.pruned safepoint).found? ts = c.found? ts := by
  rw [found?, found?, h.marks_eq, h.pruned.marks_eq, List.find?_map, List.find?_map]
  congr 1
  refine find?_kept hist ?_
  intro w hw hsettled
  have hbegin := (h.history.isSettledBy_iff hw).1 hsettled
  exact decide_eq_true (hbegin.trans hle)

theorem mem_timeline_of_pruned {x : Version V} (hx : x ∈ (c.pruned safepoint).timeline) :
    x ∈ c.timeline := by
  obtain ⟨hmem, hcommitted⟩ := List.mem_filter.1 hx
  exact List.mem_filter.2 ⟨(kept_initial c.versions).subset hmem, hcommitted⟩

/-! ### Stamps that are passed on -/

/-- The versions come with their numbers and stamps from those of another chain, or are new and nobody
    has read them. -/
structure Inherits (c c' : Chain V) : Prop where
  next_le : c.nextSerial ≤ c'.nextSerial
  versions : ∀ v ∈ c'.versions, c.nextSerial ≤ v.serial ∧ v.stamp = .fresh ∨
    ∃ w ∈ c.versions, v.serial = w.serial ∧ v.stamp = w.stamp

theorem Inherits.refl (c : Chain V) : c.Inherits c :=
  ⟨le_rfl, fun v hv => Or.inr ⟨v, hv, rfl, rfl⟩⟩

theorem Inherits.trans {c'' : Chain V} (h : c.Inherits c') (h' : c'.Inherits c'') :
    c.Inherits c'' := by
  refine ⟨h.next_le.trans h'.next_le, ?_⟩
  intro v hv
  rcases h'.versions v hv with ⟨hnew, hfresh⟩ | ⟨w, hw, hserial, hstamp⟩
  · exact Or.inl ⟨h.next_le.trans hnew, hfresh⟩
  · rw [hserial, hstamp]
    exact h.versions w hw

theorem inherits_install {txn : TxnId} {readTs : Timestamp}
    (hok : c.install txn readTs value = .ok (c', i)) : c.Inherits c' := by
  rw [Chain.install_eq] at hok
  cases hversions : c.versions with
  | nil =>
    simp only [hversions] at hok
    obtain ⟨rfl, -⟩ := Prod.mk.inj (Except.ok.inj hok)
    refine ⟨Nat.le_succ _, ?_⟩
    intro x hx
    obtain rfl := List.mem_singleton.1 hx
    exact Or.inl ⟨le_rfl, rfl⟩
  | cons head older =>
    simp only [hversions] at hok
    split at hok
    · cases hok
    · split at hok
      · obtain ⟨rfl, -⟩ := Prod.mk.inj (Except.ok.inj hok)
        refine ⟨Nat.le_succ _, ?_⟩
        intro x hx
        rcases List.mem_cons.1 hx with rfl | hx
        · exact Or.inl ⟨le_rfl, rfl⟩
        · rcases List.mem_cons.1 hx with rfl | hx
          · exact Or.inr ⟨head, by simp [hversions], rfl, rfl⟩
          · exact Or.inr ⟨x, by simp [hversions, hx], rfl, rfl⟩
      · cases hok

theorem mem_of_since {prior : Option Serial} {x : Version V} (hx : x ∈ c.since prior) :
    x ∈ c.versions := by
  cases prior with
  | none => cases hx
  | some serial => exact (List.dropWhile_suffix _).subset hx

theorem inherits_supersede {j : Installed} (hok : c.supersede i value = some (c', j)) :
    c.Inherits c' := by
  unfold Chain.supersede at hok
  split at hok
  · cases hok
  · split at hok
    · obtain ⟨rfl, -⟩ := Prod.mk.inj (Option.some.inj hok)
      refine ⟨Nat.le_succ _, ?_⟩
      intro x hx
      rcases List.mem_cons.1 hx with rfl | hx
      · exact Or.inl ⟨le_rfl, rfl⟩
      · exact Or.inr ⟨x, mem_of_since hx, rfl, rfl⟩
    · cases hok

theorem inherits_commit (c : Chain V) (i : Installed) (ts : Timestamp) :
    c.Inherits (c.commit i ts) := by
  refine ⟨le_rfl, ?_⟩
  intro x hx
  obtain ⟨w, hw, rfl⟩ := List.mem_map.1 hx
  refine Or.inr ⟨w, hw, ?_⟩
  unfold commitVersion
  split
  · exact ⟨rfl, rfl⟩
  · split <;> exact ⟨rfl, rfl⟩

theorem inherits_abort (c : Chain V) (i : Installed) : c.Inherits (c.abort i) := by
  unfold Chain.abort Chain.abort?
  split
  · refine ⟨le_rfl, ?_⟩
    intro x hx
    obtain ⟨w, hw, rfl⟩ := List.mem_map.1 hx
    refine Or.inr ⟨w, mem_of_since hw, ?_⟩
    unfold abortVersion
    split <;> exact ⟨rfl, rfl⟩
  · exact .refl c

theorem inherits_pruned (c : Chain V) (safepoint : Timestamp) : c.Inherits (c.pruned safepoint) :=
  ⟨le_rfl, fun x hx => Or.inr ⟨x, (kept_initial c.versions).subset hx, rfl, rfl⟩⟩

/-! ### Reads that stand against a writer -/

/-- Whoever is to supersede the version called `serial` must get past the read of `reader` at
    `ts`. -/
structure Guarded (c : Chain V) (serial : Serial) (ts : Timestamp) (reader : TxnId) : Prop where
  lt : serial < c.nextSerial
  guards : ∀ v ∈ c.versions, v.serial = serial → v.stamp.Guards ts reader

variable {serial : Serial}

theorem Guarded.inherits (h : c.Guarded serial ts reader) (hinherits : c.Inherits c') :
    c'.Guarded serial ts reader := by
  refine ⟨h.lt.trans_le hinherits.next_le, ?_⟩
  intro v hv hserial
  rcases hinherits.versions v hv with ⟨hnew, -⟩ | ⟨w, hw, hsame, hstamp⟩
  · exact absurd hserial (ne_of_gt (h.lt.trans_le hnew))
  · rw [hstamp]
    exact h.guards w hw (hsame.symm.trans hserial)

theorem mem_look {x : Version V} (hx : x ∈ (c.look ts reader).2.versions) :
    ∃ w ∈ c.versions, x.serial = w.serial ∧ (x.stamp = w.stamp ∨
      c.found? ts = some w.mark ∧ x.stamp = w.stamp.observe ts reader) := by
  rcases c.look_found ts reader with ⟨-, hlook⟩ | ⟨newer, y, older, hversions, hfound, hlook⟩
  · rw [hlook] at hx
    exact ⟨x, hx, rfl, Or.inl rfl⟩
  · rw [hlook] at hx
    rw [hversions]
    rcases List.mem_append.1 hx with hx | hx
    · exact ⟨x, by simp [hx], rfl, Or.inl rfl⟩
    · rcases List.mem_cons.1 hx with rfl | hx
      · exact ⟨y, by simp, rfl, Or.inr ⟨hfound, rfl⟩⟩
      · exact ⟨x, by simp [hx], rfl, Or.inl rfl⟩

theorem Guarded.look (h : c.Guarded serial ts reader) (ts' : Timestamp) (other : TxnId) :
    (c.look ts' other).2.Guarded serial ts reader := by
  refine ⟨h.lt, ?_⟩
  intro x hx hserial
  obtain ⟨w, hw, hsame, hstamp⟩ := mem_look hx
  have hguards := h.guards w hw (hsame.symm.trans hserial)
  rcases hstamp with hstamp | ⟨-, hstamp⟩
  · rw [hstamp]
    exact hguards
  · rw [hstamp]
    exact hguards.observe

/-- Whoever comes to a version guards it, whether or not it is shown to them. -/
theorem Shape.guarded_of_found? (h : c.Shape draft hist) {m : Mark V} (hm : c.found? ts = some m)
    (reader : TxnId) : (c.look ts reader).2.Guarded m.serial ts reader := by
  rcases c.look_found ts reader with ⟨hnone, -⟩ | ⟨newer, x, older, hversions, hfound, hlook⟩
  · rw [hnone] at hm
    cases hm
  · obtain rfl : m = x.mark := Option.some_inj.1 (hm.symm.trans hfound)
    have hshape := h.look ts reader
    rw [hlook] at hshape ⊢
    refine ⟨h.serial_lt_next x (by simp [hversions]), ?_⟩
    intro w hw hserial
    have hwx := List.inj_on_of_nodup_map hshape.nodup_serials hw
      (y := { x with stamp := x.stamp.observe ts reader }) (by simp) hserial
    rw [hwx]
    exact ReadStamp.guards_observe _ _ _

/-! ### Reads that are all there is against a writer -/

/-- Whoever gets past all these reads of a version may supersede it. -/
def Admits (c : Chain V) (reads : Serial → Timestamp → TxnId → Prop) : Prop :=
  ∀ v ∈ c.versions, ∀ ts writer,
    (∀ ts' reader, reads v.serial ts' reader → ts' < ts ∨ ts' = ts ∧ writer = reader) →
      v.stamp.admits ts writer = true

variable {reads : Serial → Timestamp → TxnId → Prop}

theorem Admits.mono (h : c.Admits reads) {more : Serial → Timestamp → TxnId → Prop}
    (hmore : ∀ serial ts reader, reads serial ts reader → more serial ts reader) :
    c.Admits more :=
  fun v hv ts writer hpast => h v hv ts writer fun ts' reader hread =>
    hpast ts' reader (hmore _ _ _ hread)

theorem Admits.inherits (h : c.Admits reads) (hinherits : c.Inherits c') : c'.Admits reads := by
  intro v hv ts writer hpast
  rcases hinherits.versions v hv with ⟨-, hfresh⟩ | ⟨w, hw, hsame, hstamp⟩
  · rw [hfresh]
    exact ReadStamp.admits_fresh ts writer
  · rw [hstamp]
    exact h w hw ts writer (hsame ▸ hpast)

theorem Admits.look (h : c.Admits reads)
    (hread : ∀ m ∈ c.found? ts, reads m.serial ts reader) : (c.look ts reader).2.Admits reads := by
  intro x hx ts' writer hpast
  obtain ⟨w, hw, hsame, hstamp⟩ := mem_look hx
  have hadmits := h w hw ts' writer (hsame ▸ hpast)
  rcases hstamp with hstamp | ⟨hfound, hstamp⟩
  · rw [hstamp]
    exact hadmits
  · rw [hstamp, ReadStamp.admits_observe_iff]
    exact ⟨hadmits, hpast ts reader (hsame ▸ hread w.mark hfound)⟩

end Chain

end RadixStore
