import Mathlib
import RadixStore.Proofs.Chain.History

/-!
# Timelines

The committed versions of a chain, newest first, are its timeline, whether or not a draft stands in
front. Each is valid from its beginning up to, but not including, the beginning of the next newer one,
and the newest one is valid for ever, so at every timestamp from the oldest beginning on exactly one
version is valid. That one is the first that a reader comes to.
-/

namespace RadixStore

variable {V : Type}

/-- The timestamps at which the version is valid. -/
def Version.validity (v : Version V) : Set Timestamp :=
  Set.Ico v.beginTs v.endTs

/-- When the version begins and ends. -/
def Version.span (v : Version V) : Timestamp × Timestamp :=
  (v.beginTs, v.endTs)

theorem Version.isHeldAgainst_iff {v : Version V} {txn : TxnId} :
    v.isHeldAgainst txn = true ↔ ∃ other, v.holder = some other ∧ other ≠ txn := by
  unfold isHeldAgainst
  cases v.holder <;> simp

/-- The committed versions, newest first. -/
def Chain.timeline (c : Chain V) : List (Version V) :=
  c.versions.filter Version.committed

/-! ### The order of a history -/

namespace History

variable {fin : Timestamp} {hist : List (Version V)}

theorem begins_descend (h : History fin hist) :
    hist.Pairwise fun newer older => older.beginTs ≤ newer.beginTs := by
  induction h with
  | nil => exact List.Pairwise.nil
  | cons _ _ _ hbegins _ ih => exact List.Pairwise.cons hbegins ih

theorem ends_adjoin (h : History fin hist) :
    hist.IsChain fun newer older => older.endTs = newer.beginTs := by
  induction h with
  | nil => exact List.IsChain.nil
  | cons _ _ _ _ holder ih =>
    refine List.isChain_cons.2 ⟨?_, ih⟩
    intro w hw
    cases holder with
    | nil => cases hw
    | cons _ _ hend _ _ =>
      cases hw
      exact hend

theorem endTs_of_head (h : History fin hist) : ∀ v ∈ hist.head?, v.endTs = fin := by
  intro v hv
  cases h with
  | nil => cases hv
  | cons _ _ hend _ _ =>
    cases hv
    exact hend

/-- No version ends after the history, if none begins after it. -/
theorem endTs_le (h : History fin hist) (hbegins : ∀ v ∈ hist, v.beginTs ≤ fin) :
    ∀ v ∈ hist, v.endTs ≤ fin := by
  induction h with
  | nil =>
    intro v hv
    cases hv
  | cons _ _ hend hdescend _ ih =>
    intro w hw
    rcases List.mem_cons.1 hw with rfl | hw
    · exact hend.le
    · exact (ih hdescend w hw).trans (hbegins _ (by simp))

theorem ends_before (h : History fin hist) :
    hist.Pairwise fun newer older => older.endTs ≤ newer.beginTs := by
  induction h with
  | nil => exact List.Pairwise.nil
  | cons _ _ _ hbegins holder ih => exact List.Pairwise.cons (holder.endTs_le hbegins) ih

end History

/-! ### Timelines of chains -/

theorem map_hold {α : Type} {f : Version V → α}
    (hf : ∀ v holder, f { v with holder := holder } = f v) (owner : TxnId)
    (hist : List (Version V)) : (hold owner hist).map f = hist.map f := by
  cases hist with
  | nil => rfl
  | cons v older => simp [hold, hf]

theorem History.committed_hold {fin : Timestamp} {hist : List (Version V)} (h : History fin hist)
    {owner : TxnId} : ∀ v ∈ hold owner hist, v.committed = true := by
  intro v hv
  have hmem := List.mem_map_of_mem (f := Version.committed) hv
  rw [map_hold (fun _ _ => rfl)] at hmem
  obtain ⟨w, hw, heq⟩ := List.mem_map.1 hmem
  rw [← heq]
  exact h.committed hw

namespace Chain

variable {c : Chain V} {draft : Option (Draft V)} {hist : List (Version V)}

/-- What agrees on all versions, along with which of them are committed, agrees on the timelines. -/
theorem map_timeline_congr {α : Type} {f : Version V → α} {c' : Chain V}
    (h : (c'.versions.map fun v => (v.committed, f v)) = c.versions.map fun v => (v.committed, f v)) :
    c'.timeline.map f = c.timeline.map f := by
  have htimeline : ∀ c : Chain V, c.timeline.map f =
      ((c.versions.map fun v => (v.committed, f v)).filter Prod.fst).map Prod.snd := by
    intro c
    simp [timeline, List.filter_map, Function.comp_def]
  rw [htimeline, htimeline, h]

/-- The timeline is the history, its newest version held by the owner of the draft, if any. -/
theorem Shape.timeline_eq (h : c.Shape draft hist) :
    c.timeline = draft.elim hist fun d => hold d.owner hist := by
  unfold timeline
  rw [h.versions_eq]
  cases draft with
  | none => exact List.filter_eq_self.2 fun v hv => h.history.committed hv
  | some d => exact List.filter_eq_self.2 h.history.committed_hold

theorem Shape.map_timeline (h : c.Shape draft hist) {α : Type} {f : Version V → α}
    (hf : ∀ v holder, f { v with holder := holder } = f v) : c.timeline.map f = hist.map f := by
  rw [h.timeline_eq]
  cases draft with
  | none => rfl
  | some d => exact map_hold hf d.owner hist

theorem Shape.map_span (h : c.Shape draft hist) :
    c.timeline.map Version.span = hist.map Version.span :=
  h.map_timeline fun _ _ => rfl

/-- What the spans of a history have in common pair by pair, those of the timeline have. -/
theorem Shape.pairwise_span (h : c.Shape draft hist)
    {R : Timestamp × Timestamp → Timestamp × Timestamp → Prop}
    (hhist : hist.Pairwise fun newer older => R newer.span older.span) :
    c.timeline.Pairwise fun newer older => R newer.span older.span := by
  have hmap : (hist.map Version.span).Pairwise R := List.pairwise_map.2 hhist
  rw [← h.map_span] at hmap
  exact List.pairwise_map.1 hmap

theorem Shape.begins_descend (h : c.Shape draft hist) :
    c.timeline.Pairwise fun newer older => older.beginTs ≤ newer.beginTs :=
  h.pairwise_span (R := fun newer older => older.1 ≤ newer.1) h.history.begins_descend

theorem Shape.ends_before (h : c.Shape draft hist) :
    c.timeline.Pairwise fun newer older => older.endTs ≤ newer.beginTs :=
  h.pairwise_span (R := fun newer older => older.2 ≤ newer.1) h.history.ends_before

theorem Shape.ends_adjoin (h : c.Shape draft hist) :
    c.timeline.IsChain fun newer older => older.endTs = newer.beginTs := by
  have hmap : (hist.map Version.span).IsChain fun newer older => older.2 = newer.1 :=
    (List.isChain_map Version.span).2 h.history.ends_adjoin
  rw [← h.map_span] at hmap
  exact (List.isChain_map Version.span).1 hmap

theorem Shape.endTs_of_head (h : c.Shape draft hist) :
    ∀ v ∈ c.timeline.head?, v.endTs = infinity := by
  have hmap : ∀ e ∈ (hist.map Version.span).head?, e.2 = infinity := by
    intro e he
    rw [List.head?_map] at he
    obtain ⟨v, hv, rfl⟩ := Option.mem_map.1 he
    exact h.history.endTs_of_head v hv
  rw [← h.map_span] at hmap
  intro v hv
  have hmem : v.span ∈ (c.timeline.map Version.span).head? := by
    rw [List.head?_map]
    exact Option.mem_map_of_mem _ hv
  exact hmap v.span hmem

theorem Shape.disjoint (h : c.Shape draft hist) :
    c.timeline.Pairwise fun newer older => Disjoint newer.validity older.validity := by
  refine h.ends_before.imp ?_
  intro newer older hle
  exact Set.disjoint_left.2 fun ts hnew hold => absurd (hle.trans hnew.1) (not_le.2 hold.2)

/-! ### What a reader finds -/

variable {ts : Timestamp} {newer older : List (Version V)} {x : Version V}

theorem timeline_of_versions (hversions : c.versions = newer ++ x :: older)
    (hx : x.committed = true) : c.timeline =
      newer.filter Version.committed ++ x :: older.filter Version.committed := by
  rw [timeline, hversions, List.filter_append, List.filter_cons_of_pos hx]

/-- The first version settled by a timestamp is valid then. -/
theorem Shape.lt_endTs (h : c.Shape draft hist) (hversions : c.versions = newer ++ x :: older)
    (hnewer : ∀ v ∈ newer, v.isSettledBy ts = false) (hx : x.committed = true)
    (hts : ts < infinity) : ts < x.endTs := by
  have hline := timeline_of_versions hversions hx
  cases hlast : (newer.filter Version.committed).getLast? with
  | none =>
    have hnil := List.getLast?_eq_none_iff.1 hlast
    have hend := h.endTs_of_head x (by simp [hline, hnil])
    rw [hend]
    exact hts
  | some y =>
    -- the next newer version begins later than the timestamp
    have hadjoin := h.ends_adjoin
    rw [hline] at hadjoin
    have hend := (List.isChain_append.1 hadjoin).2.2 y hlast x rfl
    obtain ⟨hy, hcommitted⟩ := List.mem_filter.1 (List.mem_of_mem_getLast? hlast)
    have hunsettled := hnewer y hy
    rw [hend]
    simpa [Version.isSettledBy, hcommitted] using hunsettled

/-- No other version is valid at a timestamp than the first one that is settled. -/
theorem Shape.notMem_validity (h : c.Shape draft hist)
    (hversions : c.versions = newer ++ x :: older)
    (hnewer : ∀ v ∈ newer, v.isSettledBy ts = false) (hx : x.isSettledBy ts = true) :
    ∀ y ∈ newer ++ older, y.committed = true → ts ∉ y.validity := by
  obtain ⟨hcommitted, hbegin⟩ : x.committed = true ∧ x.beginTs ≤ ts := by
    simpa [Version.isSettledBy] using hx
  intro y hy hcommitted' hmem
  rcases List.mem_append.1 hy with hy | hy
  · have hunsettled := hnewer y hy
    have hlt : ts < y.beginTs := by simpa [Version.isSettledBy, hcommitted'] using hunsettled
    exact absurd hmem.1 (not_le.2 hlt)
  · have hbefore := h.ends_before
    rw [timeline_of_versions hversions hcommitted] at hbefore
    have hrest := (List.pairwise_cons.1 (List.pairwise_append.1 hbefore).2.1).1
    have hend := hrest y (List.mem_filter.2 ⟨hy, hcommitted'⟩)
    exact absurd (hend.trans hbegin) (not_le.2 hmem.2)

/-- A reader finds nothing and leaves no trace when all versions begin later. Otherwise exactly one
    version is valid at its timestamp. It is shown that one unless another transaction holds it, and
    the read is recorded on it in any case. -/
theorem Shape.look_cases (h : c.Shape draft hist) (hts : ts < infinity) (reader : TxnId) :
    (c.look ts reader = (.absent, c) ∧ ∀ v ∈ c.timeline, ts < v.beginTs) ∨
      ∃ newer x older, c.versions = newer ++ x :: older ∧ x.committed = true ∧ ts ∈ x.validity ∧
        (∀ y ∈ newer ++ older, y.committed = true → ts ∉ y.validity) ∧
        c.look ts reader = (if x.isHeldAgainst reader then .held else .value x.value,
          ⟨newer ++ { x with stamp := x.stamp.observe ts reader } :: older, c.nextSerial⟩) := by
  rcases exists_settled ts c.versions with hnone | ⟨newer, x, older, hversions, hnewer, hx⟩
  · refine Or.inl ⟨?_, ?_⟩
    · unfold Chain.look
      rw [lookIn_of_unsettled hnone]
    · intro v hv
      obtain ⟨hmem, hcommitted⟩ := List.mem_filter.1 hv
      have hunsettled := hnone v hmem
      simpa [Version.isSettledBy, hcommitted] using hunsettled
  · obtain ⟨hcommitted, hbegin⟩ : x.committed = true ∧ x.beginTs ≤ ts := by
      simpa [Version.isSettledBy] using hx
    have hend := h.lt_endTs hversions hnewer hcommitted hts
    refine Or.inr ⟨newer, x, older, hversions, hcommitted, ⟨hbegin, hend⟩,
      h.notMem_validity hversions hnewer hx, ?_⟩
    have hsight : sightOf x ts reader =
        if x.isHeldAgainst reader then .held else .value x.value := by
      rw [sightOf, if_neg (not_le.2 hend)]
    unfold Chain.look
    rw [hversions, lookIn_append hnewer hx, hsight]

end Chain

end RadixStore
