import Mathlib
import RadixStore.Proofs.Chain.Pinned
import RadixStore.Proofs.Store.Reading

/-!
# Snapshots are stable

A transaction that was shown a version at its read timestamp pins it there: as long as the
transaction is open and does not write the key itself, no version that begins at or below the
timestamp gets in front, and the version is not cut off. A timestamp before the oldest version stays
before the oldest version for ever.
-/

namespace RadixStore

variable {V : Type}

namespace Cell

variable {cell cell' : Cell V} {key : Key} {c : Chain V} {txns : Multiset (Txn V)} {t : Txn V}
  {draft : Option (Draft V)} {hist : List (Version V)} {next : TxnId} {ts : Timestamp} {v : V}
  {reader : TxnId}

/-! ### What a reader pins -/

/-- As long as the transaction `reader` is open without a write of the key, it reads at `ts`, where
    `v` is pinned for it, and whoever writes the key reads later. -/
structure Secured (cell : Cell V) (key : Key) (ts : Timestamp) (reader : TxnId) (v : V) : Prop where
  reader_lt : reader < cell.next
  pinned : ∀ r ∈ cell.txns, r.id = reader → r.pending? key = none →
    r.readTs = ts ∧ (∃ draft hist, cell.Holds key draft hist ∧ Pinned ts reader v hist) ∧
      ∀ t ∈ cell.txns, (t.pending? key).isSome → ts < t.readTs

/-- Where a version is shown to `t`, whoever writes the key reads later. -/
theorem Holds.lt_of_look (h : (⟨c, txns, next⟩ : Cell V).Holds key draft hist) {u : Txn V}
    {p : Pending V} (hu : u ∈ txns) (hp : u.pending? key = some p) (hne : u.id ≠ t.id)
    (hlook : (c.look t.readTs t.id).1 = .value v) : t.readTs < u.readTs := by
  obtain ⟨rest, rfl⟩ := Multiset.exists_cons_of_mem hu
  obtain ⟨serial, rfl, -, -, hbegin⟩ := h.backed.own hp
  have hlook : (Chain.lookIn t.readTs t.id c.versions).1 = .value v := hlook
  rw [h.shape.versions_eq] at hlook
  cases hist with
  | nil => simp [layout, hold, Chain.lookIn] at hlook
  | cons x older =>
    by_contra hle
    -- the newest version is settled, so it is the one found, and it is held
    have hx : x.isSettledBy t.readTs = true := by
      rw [h.shape.history.isSettledBy_iff (by simp)]
      exact (hbegin x rfl).trans (not_lt.1 hle)
    have hheld : ({ x with holder := some u.id } : Version V).isSettledBy t.readTs = true := hx
    simp [layout, hold, Chain.lookIn, hheld, Chain.sightOf, Version.isHeldAgainst, hne] at hlook

/-- Whoever is shown a version secures it. -/
theorem Sound.secured_of_look (h : (⟨c, txns, next⟩ : Cell V).Sound key) (ht : t ∈ txns)
    (hp : t.pending? key = none) (hlook : (c.look t.readTs t.id).1 = .value v) :
    (⟨(c.look t.readTs t.id).2, txns, next⟩ : Cell V).Secured key t.readTs t.id v := by
  obtain ⟨draft, hist, hholds⟩ := h.holds
  have hpinned : Pinned t.readTs t.id v (Chain.lookIn t.readTs t.id hist).2 := by
    have hlayout : Pinned t.readTs t.id v (Chain.lookIn t.readTs t.id c.versions).2 :=
      pinned_of_lookIn hlook
    rwa [hholds.shape.versions_eq, Chain.lookIn_layout, pinned_layout] at hlayout
  refine ⟨h.below t ht, ?_⟩
  intro r hr hid _
  have hrt : r = t := h.eq_of_id hr ht hid
  refine ⟨by rw [hrt], ⟨draft, _, hholds.read _ _, hpinned⟩, ?_⟩
  intro u hu hsome
  obtain ⟨p, hup⟩ := Option.isSome_iff_exists.1 hsome
  refine hholds.lt_of_look hu hup ?_ hlook
  intro heq
  rw [h.eq_of_id hu ht heq, hp] at hup
  cases hup

/-- What is pinned at the timestamp of an open transaction stays pinned, when whoever writes the key
    reads later. -/
theorem Holds.pinned_step (hholds : cell.Holds key draft hist) (hpin : Pinned ts reader v hist)
    (ht : t ∈ cell.txns) (hts : t.readTs = ts)
    (hwriters : ∀ u ∈ cell.txns, (u.pending? key).isSome → ts < u.readTs)
    (hstep : Step key cell cell') :
    ∃ draft' hist', cell'.Holds key draft' hist' ∧ Pinned ts reader v hist' := by
  cases hstep with
  | enter hwrites _ _ => exact ⟨_, _, hholds.enter hwrites, hpin⟩
  | skip _ => exact ⟨_, _, ⟨hholds.shape, hholds.backed⟩, hpin⟩
  | read _ => exact ⟨_, _, hholds.read _ _, hpin.look _ _⟩
  | install hfree hok => exact ⟨_, _, (hholds.install hfree hok).2.1, hpin⟩
  | supersede hown hok => exact ⟨_, _, hholds.supersede hown hok, hpin⟩
  | elsewhere hne => exact ⟨_, _, hholds.elsewhere hne, hpin⟩
  | @commit c txns next w p ts' hown hle =>
    obtain ⟨serial, -, hnew⟩ := hholds.commit hown hle
    have hlater : ts < w.readTs := hwriters w (by simp) (by simp [hown])
    exact ⟨_, _, hnew, hpin.published (hlater.trans_le hle)⟩
  | abort hown => exact ⟨_, _, hholds.abort hown, hpin⟩
  | leave hfree => exact ⟨_, _, hholds.leave hfree, hpin⟩
  | trim hsafe => exact ⟨_, _, hholds.trim _, hpin.kept (hts ▸ hsafe t ht)⟩

/-- As long as somebody else has a version pinned, nobody gets to write the key who reads at its
    timestamp or before. -/
theorem Holds.writers_step (hholds : cell.Holds key draft hist) (hpin : Pinned ts reader v hist)
    (hwriters : ∀ u ∈ cell.txns, (u.pending? key).isSome → ts < u.readTs)
    (hstep : Step key cell cell')
    (hother : ∀ u ∈ cell'.txns, (u.pending? key).isSome → u.id ≠ reader) :
    ∀ u ∈ cell'.txns, (u.pending? key).isSome → ts < u.readTs := by
  intro u hu hsome
  cases hstep with
  | enter hwrites _ _ =>
    rcases Multiset.mem_cons.1 hu with rfl | hu
    · simp [Txn.pending?, hwrites] at hsome
    · exact hwriters u hu hsome
  | skip _ => exact hwriters u hu hsome
  | read _ => exact hwriters u hu hsome
  | @install c c' txns next t value i hfree hok =>
    obtain ⟨rfl, -, hadmits⟩ := hholds.install hfree hok
    have hne := hother u hu hsome
    rcases Multiset.mem_cons.1 hu with rfl | hu
    · exact hpin.lt_of_admits hholds.shape.history hadmits hne
    · exact hwriters u (by simp [hu]) hsome
  | @supersede c c' txns next t value p i hown hok =>
    rcases Multiset.mem_cons.1 hu with rfl | hu
    · exact hwriters t (by simp) (by simp [hown])
    · exact hwriters u (by simp [hu]) hsome
  | @elsewhere c txns next t other p hne =>
    rcases Multiset.mem_cons.1 hu with rfl | hu
    · exact hwriters t (by simp) (Txn.pending?_stage_of_ne t p hne ▸ hsome)
    · exact hwriters u (by simp [hu]) hsome
  | commit _ _ | abort _ | leave _ => exact hwriters u (by simp [hu]) hsome
  | trim _ => exact hwriters u hu hsome

/-- It stays secured whatever happens to the key. -/
theorem Secured.step (hsec : cell.Secured key ts reader v) (h : cell.Sound key)
    (hstep : Step key cell cell') : cell'.Secured key ts reader v := by
  refine ⟨hsec.reader_lt.trans_le (step_next hstep), ?_⟩
  intro u hu hid hp
  rcases step_continues hstep hu with hnew | ⟨r, hr, hcontinues⟩
  · exact absurd hid (ne_of_gt (hsec.reader_lt.trans_le hnew))
  · obtain ⟨hts, ⟨draft, hist, hholds, hpin⟩, hwriters⟩ :=
      hsec.pinned r hr (hcontinues.id_eq.symm.trans hid) (hcontinues.free hp)
    refine ⟨hcontinues.readTs_eq.trans hts, hholds.pinned_step hpin hr hts hwriters hstep, ?_⟩
    refine hholds.writers_step hpin hwriters hstep ?_
    -- the one transaction with that identity has no write of the key
    rintro w hw hsome rfl
    rw [(h.step hstep).eq_of_id hw hu hid.symm, hp] at hsome
    cases hsome

theorem Secured.steps (hsec : cell.Secured key ts reader v) (h : cell.Sound key)
    (hsteps : Steps key cell cell') : cell'.Secured key ts reader v := by
  induction hsteps with
  | refl => exact hsec
  | tail hsteps hstep ih => exact ih.step (h.steps hsteps) hstep

/-- What is secured is what anybody is told who reads at that timestamp, unless the version is held
    against him. -/
theorem Secured.told {told : Told V} (hsec : (⟨c, txns, next⟩ : Cell V).Secured key ts reader v)
    (hopen : ∃ r ∈ txns, r.id = reader ∧ r.pending? key = none) (ht : t ∈ txns)
    (hts : t.readTs = ts)
    (htold : match t.pending? key with
      | some p => told = .own p.value
      | none => told = .found (c.look t.readTs t.id).1) :
    told.answer = .ok v ∨ told.answer = .error .held := by
  obtain ⟨r, hr, hid, hp⟩ := hopen
  obtain ⟨-, ⟨draft, hist, hholds, hpin⟩, hwriters⟩ := hsec.pinned r hr hid hp
  cases hown : t.pending? key with
  | some p =>
    have hlt := hwriters t ht (by simp [hown])
    exact absurd hts.symm (ne_of_lt hlt)
  | none =>
    rw [hown] at htold
    have hlook : (c.look t.readTs t.id).1 = .value v ∨ (c.look t.readTs t.id).1 = .held := by
      show (Chain.lookIn t.readTs t.id c.versions).1 = _ ∨
        (Chain.lookIn t.readTs t.id c.versions).1 = _
      rw [hholds.shape.versions_eq, hts]
      exact (pinned_layout.2 hpin).lookIn t.id
    rw [htold]
    rcases hlook with hvalue | hheld
    · exact Or.inl (by simp [Told.answer, hvalue, Sight.answer])
    · exact Or.inr (by simp [Told.answer, hheld, Sight.answer])

/-! ### Before the oldest version -/

/-- There is a committed version, and all begin after `ts`. -/
def Predates (cell : Cell V) (key : Key) (ts : Timestamp) : Prop :=
  ∃ draft hist, cell.Holds key draft hist ∧ hist ≠ [] ∧ ∀ w ∈ hist, ts < w.beginTs

theorem Predates.step (hpre : cell.Predates key ts) (hstep : Step key cell cell') :
    cell'.Predates key ts := by
  obtain ⟨draft, hist, hholds, hne, hlate⟩ := hpre
  cases hstep with
  | enter hwrites _ _ => exact ⟨_, _, hholds.enter hwrites, hne, hlate⟩
  | skip _ => exact ⟨_, _, ⟨hholds.shape, hholds.backed⟩, hne, hlate⟩
  | @read c txns next t ht =>
    have hbegins := Chain.map_beginTs_lookIn t.readTs t.id hist
    refine ⟨_, _, hholds.read _ _, ?_, Chain.forall_beginTs_of_map_eq hbegins hlate⟩
    intro hnil
    rw [hnil] at hbegins
    exact hne (by simpa using hbegins.symm)
  | install hfree hok => exact ⟨_, _, (hholds.install hfree hok).2.1, hne, hlate⟩
  | supersede hown hok => exact ⟨_, _, hholds.supersede hown hok, hne, hlate⟩
  | elsewhere hother => exact ⟨_, _, hholds.elsewhere hother, hne, hlate⟩
  | @commit c txns next t p ts' hown hle =>
    obtain ⟨serial, -, hnew⟩ := hholds.commit hown hle
    obtain ⟨-, -, -, -, hbegin⟩ := hholds.backed.own hown
    refine ⟨_, _, hnew, by simp, ?_⟩
    -- the new version does not begin before the newest one so far
    intro w hw
    cases hist with
    | nil => exact absurd rfl hne
    | cons x older =>
      have hx : ts < x.beginTs := hlate x (by simp)
      rcases List.mem_cons.1 hw with rfl | hw
      · exact hx.trans_le ((hbegin x rfl).trans hle)
      · rcases List.mem_cons.1 hw with rfl | hw
        · exact hx
        · exact hlate w (by simp [hw])
  | abort hown => exact ⟨_, _, hholds.abort hown, hne, hlate⟩
  | leave hfree => exact ⟨_, _, hholds.leave hfree, hne, hlate⟩
  | trim _ =>
    refine ⟨_, _, hholds.trim _, ?_, fun w hw => hlate w ((kept_initial hist).subset hw)⟩
    intro hnil
    have hhead : hist.head? = none := by rw [← head?_kept, hnil]; rfl
    exact hne (List.head?_eq_none_iff.1 hhead)

theorem Predates.steps (hpre : cell.Predates key ts) (hsteps : Steps key cell cell') :
    cell'.Predates key ts := by
  induction hsteps with
  | refl => exact hpre
  | tail _ hstep ih => exact ih.step hstep

/-- Reads leave the committed versions committed. -/
theorem map_committed_of_readBy {c c' : Chain V} (h : Store.ReadBy t c c') :
    c'.versions.map Version.committed = c.versions.map Version.committed :=
  h.map_versions fun _ _ => rfl

/-- Who finds no version although one is committed reads before the oldest. -/
theorem Sound.predates_of_look (h : (⟨c, txns, next⟩ : Cell V).Sound key) {reader : TxnId}
    (hlook : (c.look ts reader).1 = .absent)
    (hversion : ∃ w ∈ c.versions, w.committed = true) :
    (⟨c, txns, next⟩ : Cell V).Predates key ts := by
  obtain ⟨draft, hist, hholds⟩ := h.holds
  have hlook : (Chain.lookIn ts reader c.versions).1 = .absent := hlook
  refine ⟨draft, hist, hholds, ?_, ?_⟩
  · rintro rfl
    obtain ⟨w, hw, hcommitted⟩ := hversion
    rw [hholds.shape.versions_eq] at hw
    cases draft with
    | none => simp [layout] at hw
    | some d =>
      simp only [layout, hold, List.mem_singleton] at hw
      simp [hw, Version.pending] at hcommitted
  · have hunsettled := Chain.unsettled_of_lookIn hlook
    rw [hholds.shape.versions_eq, Chain.unsettled_layout_iff] at hunsettled
    intro w hw
    have hw' := hunsettled w hw
    rwa [Bool.eq_false_iff, ne_eq, hholds.shape.history.isSettledBy_iff hw, not_le] at hw'

/-- Before the oldest version nothing is found. -/
theorem Predates.look (hpre : (⟨c, txns, next⟩ : Cell V).Predates key ts) (reader : TxnId) :
    (c.look ts reader).1 = .absent := by
  obtain ⟨draft, hist, hholds, -, hlate⟩ := hpre
  have hunsettled : ∀ w ∈ hist, w.isSettledBy ts = false := by
    intro w hw
    rw [Bool.eq_false_iff, ne_eq, hholds.shape.history.isSettledBy_iff hw, not_le]
    exact hlate w hw
  show (Chain.lookIn ts reader c.versions).1 = .absent
  rw [hholds.shape.versions_eq, Chain.lookIn_of_unsettled (Chain.unsettled_layout_iff.2 hunsettled)]

end Cell

/-! ### Over a run -/

namespace System

/-- Snapshots are stable. Let `r` be told something about `key` from the chain, and let any
    transaction `t` on the same store that reads at the same timestamp be told something about it
    after any number of further actions. If `r` was shown a version, is still open and has no write
    of the key, then `t` gets the same value, or is refused as long as another transaction holds the
    version. If `r` found no version although one was committed, then `t` finds none in the chain. -/
theorem Reachable.snapshot_stable {sys : System V} (h : sys.Reachable) {a b : Action V}
    {actions : List (Action V)} {i : Nat} {r t : Txn V} {key : Key} {sight : Sight V} {told : Told V}
    (hread : sys.Tells a i r key (.found sight))
    (hlater : (sys.exec (a :: actions)).Tells b i t key told) (hts : t.readTs = r.readTs) :
    (∀ v, sight = .value v →
      (∃ u ∈ openOn (sys.exec (a :: actions)).txns i, u.id = r.id ∧ u.pending? key = none) →
      told.answer = .ok v ∨ told.answer = .error .held) ∧
    (sight = .absent → (∃ w ∈ (sys.cell i key).chain.versions, w.committed = true) →
      ∀ later, told = .found later → later = .absent) := by
  have hsound := h.sound
  have hcell := h.cell_sound i key
  have hact := hsound.act a
  have hrun : (sys.act a).1.Leads (sys.exec (a :: actions)) := hact.sound.exec actions
  obtain ⟨hr, c, hbefore, hfound⟩ := hread.cell hsound
  obtain ⟨ht, c', hbefore', htold⟩ := hlater.cell hrun.sound
  cases hp : r.pending? key with
  | some p =>
    rw [hp] at hfound
    cases hfound
  | none =>
    rw [hp] at hfound
    obtain ⟨hsight, hafter⟩ := hfound
    cases hsight
    have hmid : (⟨c, openOn sys.txns i, sys.nextId i⟩ : Cell V).Sound key :=
      hcell.steps (hbefore.steps hr _)
    have hsteps := (hafter.trans (hrun.steps i key)).trans (hbefore'.steps ht _)
    refine ⟨?_, ?_⟩
    · intro v hv hopen
      have hsecured := hmid.secured_of_look hr hp hv
      have hend := hsecured.steps (hmid.step (.read hr)) hsteps
      refine hend.told hopen ht hts ?_
      cases hown : t.pending? key with
      | some p =>
        rw [hown] at htold
        exact htold
      | none =>
        rw [hown] at htold
        exact htold.1
    · rintro habsent ⟨w, hw, hcommitted⟩ later rfl
      have hversion : ∃ w ∈ c.versions, w.committed = true := by
        have hmem := List.mem_map_of_mem (f := Version.committed) hw
        rw [← Cell.map_committed_of_readBy hbefore, hcommitted] at hmem
        obtain ⟨w', hw', hcommitted'⟩ := List.mem_map.1 hmem
        exact ⟨w', hw', hcommitted'⟩
      have hpre := hmid.predates_of_look habsent hversion
      have hend := (hpre.step (.read hr)).steps hsteps
      cases hown : t.pending? key with
      | some p =>
        rw [hown] at htold
        cases htold
      | none =>
        rw [hown] at htold
        obtain ⟨hlook, -⟩ := htold
        cases hlook
        rw [hts]
        exact hend.look t.id

/-- A reader is shown a version. A newer one is committed and the older ones are swept, and whoever
    reads at the same timestamp afterwards is shown the same. -/
theorem snapshot_stable_amid_commit :
    ∃ told, ((start [Config.standard] false : System Nat).exec
      [.openTxn 0 "w" 1 true, .set "w" [7] 5, .commit "w" 2, .openTxn 0 "r" 3 false,
        .get "r" [7], .openTxn 0 "w" 4 true, .set "w" [7] 6, .commit "w" 8, .gc 0,
        .openTxn 0 "q" 3 false]).Tells (.get "q" [7]) 0 ⟨4, 3, false, []⟩ [7] told ∧
      (told.answer = .ok 5 ∨ told.answer = .error .held) := by
  have hreachable : ((start [Config.standard] false : System Nat).exec [.openTxn 0 "w" 1 true,
      .set "w" [7] 5, .commit "w" 2, .openTxn 0 "r" 3 false]).Reachable := ⟨_, _, _, rfl⟩
  have hread : ((start [Config.standard] false : System Nat).exec [.openTxn 0 "w" 1 true,
      .set "w" [7] 5, .commit "w" 2, .openTxn 0 "r" 3 false]).Tells (.get "r" [7]) 0
        ⟨2, 3, false, []⟩ [7] (.found (.value 5)) :=
    tells_get (by decide +kernel) (by decide +kernel)
  have hlater : (((start [Config.standard] false : System Nat).exec [.openTxn 0 "w" 1 true,
      .set "w" [7] 5, .commit "w" 2, .openTxn 0 "r" 3 false]).exec [.get "r" [7],
        .openTxn 0 "w" 4 true, .set "w" [7] 6, .commit "w" 8, .gc 0,
        .openTxn 0 "q" 3 false]).Tells (.get "q" [7]) 0 ⟨4, 3, false, []⟩ [7] (.found (.value 5)) :=
    tells_get (by decide +kernel) (by decide +kernel)
  have hstable := hreachable.snapshot_stable hread hlater rfl
  exact ⟨_, hlater, hstable.1 5 rfl ⟨⟨2, 3, false, []⟩, by decide +kernel, rfl, rfl⟩⟩

end System

end RadixStore
