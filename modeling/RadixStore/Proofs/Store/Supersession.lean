import Mathlib
import RadixStore.Proofs.Chain.Marks
import RadixStore.Proofs.Store.Snapshot

/-!
# How versions supersede each other

The newest committed version of a key stays the same as long as a transaction has the key written, and
a version that a transaction was shown stays the one that it comes to as long as it has not. Only a
commit puts a version in front of the others, and that one does not begin before them.
-/

namespace RadixStore

variable {V : Type}

namespace Cell

variable {cell cell' : Cell V} {key : Key} {c c' : Chain V} {txns : Multiset (Txn V)}
  {t u w : Txn V} {draft : Option (Draft V)} {hist : List (Version V)} {next : TxnId}
  {ts : Timestamp} {value v : V} {reader : TxnId} {i : Installed} {p : Pending V} {m : Mark V}

/-! ### What a step makes of the committed versions -/

theorem Holds.id_eq_of_pending (h : cell.Holds key draft hist) (ht : t ∈ cell.txns)
    (hu : u ∈ cell.txns) (hp : (t.pending? key).isSome) (hq : (u.pending? key).isSome) :
    t.id = u.id := by
  obtain ⟨p, hp⟩ := Option.isSome_iff_exists.1 hp
  obtain ⟨q, hq⟩ := Option.isSome_iff_exists.1 hq
  obtain ⟨chain, txns, next⟩ := cell
  obtain ⟨rest, rfl⟩ := Multiset.exists_cons_of_mem ht
  obtain ⟨serial, hdraft, -, hnone, -⟩ := h.backed.own hp
  rcases Multiset.mem_cons.1 hu with rfl | hu
  · rfl
  · obtain ⟨rest, rfl⟩ := Multiset.exists_cons_of_mem hu
    rw [claims_cons_of_some rest hq] at hnone
    exact absurd hnone (Multiset.cons_ne_zero)

/-- A transaction that has the key written does not read below the newest version, and this is the
    one that it is to supersede. -/
theorem Holds.newest?_begun (h : (⟨c, t ::ₘ txns, next⟩ : Cell V).Holds key draft hist)
    (hp : t.pending? key = some p) : ∀ m ∈ c.newest?, m.beginTs ≤ t.readTs := by
  obtain ⟨serial, -, -, -, hbegin⟩ := h.backed.own hp
  have hshape : c.Shape draft hist := h.shape
  intro m hm
  rw [hshape.newest?_eq] at hm
  obtain ⟨head, hhead, rfl⟩ := Option.mem_map.1 hm
  exact hbegin head hhead

theorem Holds.prior_eq (h : (⟨c, t ::ₘ txns, next⟩ : Cell V).Holds key draft hist)
    (hp : t.pending? key = some p) : p.installed.prior = c.newest?.map Mark.serial := by
  obtain ⟨serial, -, hinstalled, -⟩ := h.backed.own hp
  have hshape : c.Shape draft hist := h.shape
  rw [hinstalled, hshape.prior_eq]

theorem Holds.marks_commit (h : (⟨c, t ::ₘ txns, next⟩ : Cell V).Holds key draft hist)
    (hp : t.pending? key = some p) (hts : t.readTs ≤ ts) :
    (c.commit p.installed ts).marks = ⟨p.installed.node, ts, p.value⟩ :: c.marks := by
  obtain ⟨serial', hdraft', hinstalled, -⟩ := h.backed.own hp
  obtain ⟨serial, hdraft, hnew⟩ := h.commit hp hts
  obtain rfl : serial' = serial := by
    rw [hdraft] at hdraft'
    simpa using hdraft'.symm
  have hshape : c.Shape draft hist := h.shape
  have hnode : p.installed.node = serial' := by rw [hinstalled]; rfl
  rw [hnew.shape.marks_eq, hshape.marks_eq, List.map_cons, map_endAt (fun _ _ => rfl), hnode]
  rfl

theorem Holds.endTs_commit (h : (⟨c, t ::ₘ txns, next⟩ : Cell V).Holds key draft hist)
    (hp : t.pending? key = some p) (hts : t.readTs ≤ ts) (hm : c.newest? = some m) {x : Version V}
    (hx : x ∈ (c.commit p.installed ts).timeline) (hserial : x.serial = m.serial) :
    x.endTs = ts := by
  obtain ⟨serial, -, hnew⟩ := h.commit hp hts
  have hshape : c.Shape draft hist := h.shape
  have hshape' : (c.commit p.installed ts).Shape none _ := hnew.shape
  rw [hshape.newest?_eq] at hm
  obtain ⟨head, hhead, rfl⟩ := Option.map_eq_some_iff.1 hm
  obtain ⟨older, rfl⟩ := List.head?_eq_some_iff.1 hhead
  have hversions := hshape'.versions_eq
  have hxv : x ∈ (c.commit p.installed ts).versions := (List.mem_filter.1 hx).1
  have hsame := List.inj_on_of_nodup_map hshape'.nodup_serials hxv
    (y := { head with endTs := ts }) (by simp [hversions, layout, endAt]) hserial
  rw [hsame]

/-- The committed versions stay as they are, or are trimmed, or a version gets in front by the commit
    of a transaction that does not read below them. -/
theorem step_marks (h : cell.Holds key draft hist) (hstep : Step key cell cell') :
    cell'.chain.marks = cell.chain.marks ∨
      (∃ safepoint, (∀ t ∈ cell.txns, safepoint ≤ t.readTs) ∧
        cell'.chain.newest? = cell.chain.newest? ∧
        ∀ ts, safepoint ≤ ts → cell'.chain.found? ts = cell.chain.found? ts) ∨
      ∃ t p ts, cell.txns = t ::ₘ cell'.txns ∧ t.pending? key = some p ∧ t.readTs ≤ ts ∧
        (∀ m ∈ cell.chain.newest?, m.beginTs ≤ t.readTs) ∧
        cell'.chain.marks = ⟨p.installed.node, ts, p.value⟩ :: cell.chain.marks := by
  cases hstep with
  | enter _ _ _ => exact Or.inl rfl
  | skip _ => exact Or.inl rfl
  | read _ => exact Or.inl (Chain.marks_look _ _ _)
  | install hp hok =>
    have hshape := (h.install hp hok).2.1.shape
    exact Or.inl (hshape.marks_eq.trans h.shape.marks_eq.symm)
  | supersede hp hok =>
    have hshape := (h.supersede hp hok).shape
    exact Or.inl (hshape.marks_eq.trans h.shape.marks_eq.symm)
  | elsewhere _ => exact Or.inl rfl
  | @commit c txns next t p ts hp hts =>
    exact Or.inr (Or.inr ⟨t, p, ts, rfl, hp, hts, h.newest?_begun hp, h.marks_commit hp hts⟩)
  | abort hp =>
    have hshape := (h.abort hp).shape
    exact Or.inl (hshape.marks_eq.trans h.shape.marks_eq.symm)
  | leave _ => exact Or.inl rfl
  | @trim c txns next safepoint hsafe =>
    exact Or.inr (Or.inl ⟨safepoint, hsafe, h.shape.newest?_pruned,
      fun ts hle => h.shape.found?_pruned hle⟩)

/-- As long as a transaction has the key written, the newest version stays the same. -/
theorem Sound.newest?_of_writer (h : cell.Sound key) (hsteps : Steps key cell cell')
    (hw : w ∈ cell.txns) (hp : (w.pending? key).isSome) (hu : u ∈ cell'.txns) (hid : u.id = w.id) :
    cell'.chain.newest? = cell.chain.newest? := by
  induction hsteps generalizing u with
  | refl => rfl
  | @tail mid last hsteps hstep ih =>
    have hmid := h.steps hsteps
    obtain ⟨draft, hist, hholds⟩ := hmid.holds
    rcases step_continues hstep hu with hnew | ⟨t, ht, hcontinues⟩
    · have hlt := (h.below w hw).trans_le (steps_next hsteps)
      exact absurd (hid ▸ hlt) (not_lt.2 hnew)
    · have htw : t.id = w.id := hcontinues.id_eq.symm.trans hid
      have hsame := ih ht htw
      have hpt : (t.pending? key).isSome := by
        by_contra hfree
        have hfree := (h.continues hsteps hw ht htw).free (by simpa using hfree)
        simp [hfree] at hp
      rcases step_marks hholds hstep with hmarks | ⟨_, -, hnewest, -⟩ | ⟨s, p, ts, htxns, hps, -⟩
      · exact (Chain.newest?_congr hmarks).trans hsame
      · exact hnewest.trans hsame
      · -- the transaction that commits is the writer, and ends
        exfalso
        have hst := hholds.id_eq_of_pending (t := s) (by simp [htxns]) ht (by simp [hps]) hpt
        have hids := hmid.ids
        rw [htxns, Multiset.map_cons, Multiset.nodup_cons] at hids
        exact hids.1 (hst.trans hcontinues.id_eq.symm ▸ Multiset.mem_map_of_mem Txn.id hu)

/-- As long as a transaction is open that was shown a version and has not written the key, this
    version is the one that it comes to. -/
theorem Secured.found?_eq (hsec : cell.Secured key ts reader v) (h : cell.Sound key)
    (hsteps : Steps key cell cell') (hu : u ∈ cell'.txns) (hid : u.id = reader)
    (hfree : u.pending? key = none) : cell'.chain.found? ts = cell.chain.found? ts := by
  induction hsteps generalizing u with
  | refl => rfl
  | @tail mid last hsteps hstep ih =>
    have hmid := h.steps hsteps
    obtain ⟨draft, hist, hholds⟩ := hmid.holds
    rcases step_continues hstep hu with hnew | ⟨t, ht, hcontinues⟩
    · have hlt := hsec.reader_lt.trans_le (steps_next hsteps)
      exact absurd (hid ▸ hlt) (not_lt.2 hnew)
    · have hfree' := hcontinues.free hfree
      have hid' : t.id = reader := hcontinues.id_eq.symm.trans hid
      have hsame := ih ht hid' hfree'
      obtain ⟨hts, -, hwriters⟩ := (hsec.steps h hsteps).pinned t ht hid' hfree'
      rcases step_marks hholds hstep with hmarks | ⟨_, hsafe, -, hfound⟩ |
        ⟨s, p, ts', htxns, hps, hle, -, hmarks⟩
      · exact (Chain.found?_congr hmarks ts).trans hsame
      · exact (hfound ts (hts ▸ hsafe t ht)).trans hsame
      · -- the new version begins later
        have hlater : ts < ts' := (hwriters s (by simp [htxns]) (by simp [hps])).trans_le hle
        rw [← hsame, Chain.found?, hmarks, List.find?_cons_of_neg (by simpa using hlater)]
        rfl

/-- There is always a newest version once there is one, and its beginning does not go back. -/
theorem Sound.exists_newest? (h : cell.Sound key) (hsteps : Steps key cell cell')
    (hm : cell.chain.newest? = some m) :
    ∃ n, cell'.chain.newest? = some n ∧ m.beginTs ≤ n.beginTs := by
  induction hsteps with
  | refl => exact ⟨m, hm, le_rfl⟩
  | @tail mid last hsteps hstep ih =>
    obtain ⟨n, hn, hle⟩ := ih
    obtain ⟨draft, hist, hholds⟩ := (h.steps hsteps).holds
    rcases step_marks hholds hstep with hmarks | ⟨_, -, hnewest, -⟩ |
      ⟨s, p, ts, -, -, hts, hbegin, hmarks⟩
    · exact ⟨n, (Chain.newest?_congr hmarks).trans hn, hle⟩
    · exact ⟨n, hnewest.trans hn, hle⟩
    · refine ⟨⟨p.installed.node, ts, p.value⟩, ?_, hle.trans ((hbegin n hn).trans hts)⟩
      rw [Chain.newest?, hmarks, List.head?_cons]

/-! ### What stands against a write -/

theorem steps_guarded {serial : Serial} (hsteps : Steps key cell cell')
    (h : cell.chain.Guarded serial ts reader) : cell'.chain.Guarded serial ts reader := by
  induction hsteps with
  | refl => exact h
  | tail _ hstep ih =>
    cases hstep with
    | enter _ _ _ => exact ih
    | skip _ => exact ih
    | read _ => exact ih.look _ _
    | install _ hok => exact ih.inherits (Chain.inherits_install hok)
    | supersede _ hok => exact ih.inherits (Chain.inherits_supersede hok)
    | elsewhere _ => exact ih
    | commit _ _ => exact ih.inherits (Chain.inherits_commit _ _ _)
    | abort _ => exact ih.inherits (Chain.inherits_abort _ _)
    | leave _ => exact ih
    | trim _ => exact ih.inherits (Chain.inherits_pruned _ _)

/-- A first write is admitted by a transaction that does not read below the newest version, and that
    gets past all reads of this version. -/
theorem Holds.admitted (h : (⟨c, t ::ₘ txns, next⟩ : Cell V).Holds key draft hist)
    (hp : t.pending? key = none) (hok : c.install t.id t.readTs value = .ok (c', i))
    (hm : c.newest? = some m) : m.beginTs ≤ t.readTs ∧ ∀ ts reader,
      c.Guarded m.serial ts reader → ts < t.readTs ∨ ts = t.readTs ∧ t.id = reader := by
  obtain ⟨rfl, -, hadmits⟩ := h.install hp hok
  have hshape : c.Shape none hist := h.shape
  rw [hshape.newest?_eq] at hm
  obtain ⟨head, hhead, rfl⟩ := Option.map_eq_some_iff.1 hm
  obtain ⟨hstamp, hbegin⟩ := hadmits head hhead
  refine ⟨hbegin, ?_⟩
  intro ts reader hguarded
  have hmem : head ∈ c.versions := by
    rw [hshape.versions_eq]
    exact List.mem_of_mem_head? hhead
  exact hguarded.guards head hmem rfl _ _ hstamp

end Cell

end RadixStore
