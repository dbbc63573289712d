import Mathlib
import RadixStore.Proofs.Store.Publication

/-!
# What is written down of a key

Of a committed version only the lock and the record of reads ever change, apart from its end, which a
commit sets. What is left when these two are put aside, version after version, are the annals of the
key. A commit of the key adds to them and ends the newest entry, a sweep may cut off the oldest entries,
and no other action changes them. In particular they last while a write is pending, as nobody else can
commit the key then.
-/

namespace RadixStore

variable {V : Type}

/-- What a version says, whoever holds it and whoever has read it. -/
def Version.entry (v : Version V) : Mark V × Timestamp :=
  (v.mark, v.endTs)

namespace Chain

/-- What the committed versions say, newest first. -/
def annals (c : Chain V) : List (Mark V × Timestamp) :=
  c.timeline.map Version.entry

/-- The chain `c'` says the same as `c`, except that oldest entries may be gone. -/
structure Cut (c c' : Chain V) : Prop where
  annals_prefix : c'.annals <+: c.annals
  newest_eq : c'.newest? = c.newest?

variable {c c' c'' : Chain V} {draft draft' : Option (Draft V)} {hist : List (Version V)}
  {safepoint : Timestamp}

theorem Cut.refl (c : Chain V) : c.Cut c :=
  ⟨List.prefix_rfl, rfl⟩

theorem Cut.trans (h : c.Cut c') (h' : c'.Cut c'') : c.Cut c'' :=
  ⟨h'.annals_prefix.trans h.annals_prefix, h'.newest_eq.trans h.newest_eq⟩

theorem marks_eq_annals (c : Chain V) : c.marks = c.annals.map Prod.fst := by
  simp [marks, annals, Version.entry]

theorem newest?_of_annals (h : c'.annals = c.annals) : c'.newest? = c.newest? :=
  newest?_congr (by rw [marks_eq_annals, marks_eq_annals, h])

theorem Cut.of_annals_eq (h : c'.annals = c.annals) : c.Cut c' :=
  ⟨by rw [h], newest?_of_annals h⟩

theorem Shape.annals_eq (h : c.Shape draft hist) : c.annals = hist.map Version.entry :=
  h.map_timeline fun _ _ => rfl

/-- What stands in front of a history, and who holds its newest version, is not in the annals. -/
theorem Shape.annals_congr (h : c.Shape draft hist) (h' : c'.Shape draft' hist) :
    c'.annals = c.annals := by
  rw [h.annals_eq, h'.annals_eq]

theorem Shape.cut_pruned (h : c.Shape draft hist) : c.Cut (c.pruned safepoint) where
  annals_prefix := by
    rw [h.annals_eq, h.pruned.annals_eq]
    exact (kept_initial hist).map Version.entry
  newest_eq := h.newest?_pruned

end Chain

/-! ### Operations on the store -/

namespace Store

variable {s : Store V} {t : Txn V} {txns : Multiset (Txn V)} {key : Key} {next : TxnId}
  {draft : Option (Draft V)} {hist : List (Version V)}

theorem annals_readBy {c c' : Chain V} (h : ReadBy t c c') : c'.annals = c.annals :=
  Chain.map_timeline_congr (h.map_versions fun _ _ => rfl)

theorem annals_set (hs : s.index.Valid) (h : (s.cell (t ::ₘ txns) next key).Holds key draft hist)
    (k : Key) (value : V) :
    ((s.set t k value).store.chain key).annals = (s.chain key).annals := by
  obtain ⟨-, ⟨e, -, -, hchain⟩ | ⟨c, i, -, hp, hok, -, hchain⟩ | ⟨p, c, i, -, hp, hok, -, hchain⟩⟩ :=
    set_cases hs t k value
  · rw [hchain]
  · rw [hchain]
    by_cases hk : key = k
    · subst hk
      rw [Function.update_self]
      exact h.shape.annals_congr (h.install hp hok).2.1.shape
    · rw [Function.update_of_ne hk]
  · rw [hchain]
    by_cases hk : key = k
    · subst hk
      rw [Function.update_self]
      exact h.shape.annals_congr (h.supersede hp hok).shape
    · rw [Function.update_of_ne hk]

theorem annals_discard (hs : s.index.Valid) (hw : (t.writes.map Prod.fst).Nodup)
    (h : (s.cell (t ::ₘ txns) next key).Holds key draft hist) :
    ((s.discard t).chain key).annals = (s.chain key).annals := by
  rw [discard_eq]
  show ((s.withdraw t.writes).chain key).annals = _
  rw [(withdraw_spec hs hw).2 key]
  cases hp : t.pending? key with
  | none => rfl
  | some p => exact h.shape.annals_congr (h.abort hp).shape

/-- A commit of a transaction that has not written the key leaves its annals. -/
theorem annals_commit (hs : s.index.Valid) (hw : (t.writes.map Prod.fst).Nodup)
    (h : (s.cell (t ::ₘ txns) next key).Holds key draft hist) {ts : Timestamp}
    (hfree : t.readTs ≤ ts → t.pending? key = none) :
    ((s.commit t ts).store.chain key).annals = (s.chain key).annals := by
  by_cases hts : ts < t.readTs
  · rw [commit_of_lt hts]
    exact annals_discard hs hw h
  · obtain ⟨-, -, -, -, hchain⟩ := commit_spec hs hw (not_lt.1 hts)
    rw [hchain key, hfree (not_lt.1 hts)]

theorem cut_gc (hs : s.index.Valid) (hshape : (s.chain key).Shape draft hist) :
    (s.chain key).Cut (s.gc.1.chain key) := by
  unfold Store.gc
  rw [sweepKeys_fst]
  rcases (foldl_trimChain_spec hs s.safepoint
    ((s.index.scan none none .forward none).map Leaf.key)).2 key with hsame | htrim
  · rw [hsame]
    exact .refl _
  · rw [htrim]
    exact hshape.cut_pruned

end Store

/-! ### Actions -/

namespace System

variable {sys sys' : System V} {i j : Nat} {s s' : Store V} {t u w : Txn V} {key : Key}
  {name : String} {a : Action V} {value : V}

/-- The annals of `key` on store `i` are the same in `sys'`. -/
def KeepsAnnals (sys : System V) (i : Nat) (key : Key) (sys' : System V) : Prop :=
  (sys'.cell i key).chain.annals = (sys.cell i key).chain.annals

theorem keepsAnnals_setStore (hs : sys.stores[j]? = some s)
    (h : (s'.chain key).annals = (s.chain key).annals) (i : Nat) :
    sys.KeepsAnnals i key (sys.setStore j s') := by
  unfold KeepsAnnals
  rw [chain_setStore hs]
  split
  · rename_i hij
    subst hij
    rw [cell_of_store hs]
    exact h
  · rfl

theorem KeepsAnnals.of_stores (h : sys'.stores = sys.stores) : sys.KeepsAnnals i key sys' := by
  unfold KeepsAnnals cell
  rw [h]

theorem Reachable.keepsAnnals_discard (h : sys.Reachable) (name : String) (i : Nat) (key : Key) :
    sys.KeepsAnnals i key (sys.discard name).1 := by
  refine onTxn_induction (P := sys.KeepsAnnals i key) name rfl ?_
  intro j t s hfind hs
  have hsound := h.sound.stores j s hs
  have hw := h.sound.nodup_writes hfind hs
  obtain ⟨draft, hist, hholds⟩ := h.holds_find hfind hs key
  exact keepsAnnals_setStore hs (Store.annals_discard hsound.valid hw hholds) i

theorem Reachable.keepsAnnals_commit (h : sys.Reachable) {ts : Timestamp}
    (hother : ∀ t p, ¬ sys.Commits name ts i t key p) :
    sys.KeepsAnnals i key (sys.act (.commit name ts)).1 := by
  refine onTxn_induction (P := sys.KeepsAnnals i key) name rfl ?_
  intro j t s hfind hs
  have hsound := h.sound.stores j s hs
  have hw := h.sound.nodup_writes hfind hs
  obtain ⟨draft, hist, hholds⟩ := h.holds_find hfind hs key
  by_cases hij : i = j
  · subst hij
    refine keepsAnnals_setStore hs (Store.annals_commit hsound.valid hw hholds ?_) i
    intro hts
    cases hp : t.pending? key with
    | none => rfl
    | some p =>
      -- otherwise it would be a commit of the key
      have hverdict := (Store.commit_spec hsound.valid hw hts).1
      exact absurd (commits_of_verdict hfind hp (by rw [hs, Option.map_some, hverdict])) (hother t p)
  · exact congrArg Chain.annals ((chain_setStore hs _ i key).trans (if_neg hij))

/-- The annals of a key change by a commit of the key only, and are cut by a sweep only. -/
theorem Reachable.annals_act (h : sys.Reachable) (a : Action V) (i : Nat) (key : Key) :
    sys.KeepsAnnals i key (sys.act a).1 ∨
      (a = .gc i ∧ (sys.cell i key).chain.Cut ((sys.act a).1.cell i key).chain) ∨
      ∃ name ts t p, a = .commit name ts ∧ sys.Commits name ts i t key p := by
  cases a with
  | openTxn j name readTs update =>
    have hdiscard := h.keepsAnnals_discard name i key
    have htake : ∀ id after, (sys.discard name).1.takeId j = some (id, after) →
        sys.KeepsAnnals i key after := fun id after hid =>
      (KeepsAnnals.of_stores (takeId_spec hid).1).trans hdiscard
    refine Or.inl (openTxn_induction (P := sys.KeepsAnnals i key) hdiscard htake ?_)
    intro id after s hid hs
    have hsame : ((s.openTxn id readTs update).1.chain key).annals = (s.chain key).annals := rfl
    exact (keepsAnnals_setStore hs hsame i).trans (htake id after hid)
  | get name k =>
    refine Or.inl (onTxn_induction (P := sys.KeepsAnnals i key) name rfl ?_)
    intro j t s hfind hs
    have hread := Store.readBy_get (h.sound.stores j s hs).valid t k key
    exact keepsAnnals_setStore hs (Store.annals_readBy hread) i
  | set name k value =>
    refine Or.inl (onTxn_induction (P := sys.KeepsAnnals i key) name rfl ?_)
    intro j t s hfind hs
    obtain ⟨draft, hist, hholds⟩ := h.holds_find hfind hs key
    exact keepsAnnals_setStore hs
      (Store.annals_set (h.sound.stores j s hs).valid hholds k value) i
  | commit name ts =>
    by_cases hcommits : ∃ t p, sys.Commits name ts i t key p
    · obtain ⟨t, p, hc⟩ := hcommits
      exact Or.inr (Or.inr ⟨name, ts, t, p, rfl, hc⟩)
    · exact Or.inl (h.keepsAnnals_commit fun t p hc => hcommits ⟨t, p, hc⟩)
  | discard name => exact Or.inl (h.keepsAnnals_discard name i key)
  | openScan name lower upper dir =>
    exact Or.inl (onTxn_induction (P := sys.KeepsAnnals i key) name rfl
      fun _ _ _ _ _ => rfl)
  | nextItem n =>
    refine Or.inl (onScan_induction (P := sys.KeepsAnnals i key) n rfl ?_)
    intro scan j t s hscan hfind hs
    have hread := (Store.scanUpTo_spec t (s.size + 1) (h.sound.stores j s hs).valid scan.cursor).2 key
    exact keepsAnnals_setStore hs (Store.annals_readBy hread) i
  | closeScan n => exact Or.inl rfl
  | gc j =>
    by_cases hij : j = i
    · subst hij
      refine Or.inr (Or.inl ⟨rfl, ?_⟩)
      refine onStore_induction (P := fun after => (sys.cell j key).chain.Cut (after.cell j key).chain)
        j (.refl _) fun s hs => ?_
      obtain ⟨draft, hist, hholds⟩ := h.holds hs key
      have hcut := Store.cut_gc (h.sound.stores j s hs).valid hholds.shape
      have hchain := (chain_setStore hs s.gc.1 j key).trans (if_pos rfl)
      rw [cell_of_store hs]
      exact hchain.symm ▸ hcut
    · refine Or.inl (onStore_induction (P := sys.KeepsAnnals i key) j rfl fun s hs => ?_)
      exact congrArg Chain.annals ((chain_setStore hs _ i key).trans (if_neg (Ne.symm hij)))
  | advanceWatermark j ts =>
    refine Or.inl (onStore_induction (P := sys.KeepsAnnals i key) j rfl ?_)
    intro s hs
    have hsame : ((s.advanceWatermark ts).chain key).annals = (s.chain key).annals := rfl
    exact keepsAnnals_setStore hs hsame i
  | takeId j =>
    refine Or.inl (act_takeId_induction (P := sys.KeepsAnnals i key) j rfl ?_)
    intro id after hid
    exact KeepsAnnals.of_stores (takeId_spec hid).1

/-! ### While a write is pending -/

/-- After its commit a transaction is open no longer. -/
theorem Commits.id_ne (h : sys.Sound) {ts : Timestamp} {p : Pending V}
    (hc : sys.Commits name ts i t key p)
    (hu : u ∈ openOn (sys.act (.commit name ts)).1.txns i) : u.id ≠ t.id := by
  obtain ⟨s, hs⟩ := h.exists_store hc.find
  rw [act_commit hc.find hs] at hu
  exact h.id_ne_of_unbind hc.find hs hu

/-- A transaction with a write pending that stays open keeps everybody from committing the key. -/
theorem Reachable.annals_of_pending (h : sys.Reachable) (hu : u ∈ openOn sys.txns i)
    (hp : (u.pending? key).isSome) (hw : w ∈ openOn (sys.act a).1.txns i) (hid : w.id = u.id) :
    sys.KeepsAnnals i key (sys.act a).1 ∨
      a = .gc i ∧ (sys.cell i key).chain.Cut ((sys.act a).1.cell i key).chain := by
  rcases h.annals_act a i key with hsame | hcut | ⟨name, ts, t, p, rfl, hc⟩
  · exact Or.inl hsame
  · exact Or.inr hcut
  · have hsound := h.cell_sound i key
    obtain ⟨draft, hist, hholds⟩ := hsound.holds
    have hsame : t.id = u.id :=
      hholds.id_eq_of_pending (h.sound.mem_openOn hc.find) hu (by simp [hc.pending]) hp
    exact absurd (hid.trans hsame.symm) (hc.id_ne h.sound hw)

/-- From the first write on, as long as the transaction is open, the annals of the key last, but for
    oldest entries that sweeps cut off. -/
theorem FirstWrites.annals_last (h : sys.Reachable) (hwrites : sys.FirstWrites name key value i t)
    {done rest : List (Action V)}
    (hopen : w ∈ openOn (sys.exec (.set name key value :: done ++ rest)).txns i)
    (hid : w.id = t.id) :
    (sys.cell i key).chain.Cut ((sys.exec (.set name key value :: done)).cell i key).chain ∧
      (.gc i ∉ done → sys.KeepsAnnals i key (sys.exec (.set name key value :: done))) := by
  induction done using List.reverseRecOn generalizing rest with
  | nil =>
    rcases h.annals_act (.set name key value) i key with hsame | ⟨heq, -⟩ | ⟨_, _, _, _, heq, -⟩
    · exact ⟨.of_annals_eq hsame, fun _ => hsame⟩
    · cases heq
    · cases heq
  | append_singleton done a ih =>
    have hopen' : w ∈ openOn (sys.exec (.set name key value :: done ++ a :: rest)).txns i := by
      simpa using hopen
    obtain ⟨hcut, hsame⟩ := ih hopen'
    obtain ⟨-, u, hu, huid, -, hup⟩ := hwrites.lasts h hopen' hid
    obtain ⟨-, r, hr, hrid, -⟩ := hwrites.lasts h hopen hid
    have hstep : sys.exec (.set name key value :: (done ++ [a])) =
        ((sys.exec (.set name key value :: done)).act a).1 := by
      rw [← List.cons_append, exec_append]
      rfl
    rw [hstep] at hr ⊢
    rcases (h.exec _).annals_of_pending hu hup hr (hrid.trans huid.symm) with hkeeps | ⟨rfl, hmore⟩
    · refine ⟨hcut.trans (.of_annals_eq hkeeps), fun hgc => ?_⟩
      exact hkeeps.trans (hsame fun hmem => hgc (List.mem_append_left _ hmem))
    · exact ⟨hcut.trans hmore, fun hgc => absurd (by simp) hgc⟩

/-! ### Who has written a key -/

/-- Whatever is in the annals of a key was written by somebody who is open no longer. -/
theorem exists_writer (configs : List Config) (shared : Bool) {run : List (Action V)}
    (hne : (((start configs shared : System V).exec run).cell i key).chain.annals ≠ []) :
    ∃ before name value mid u, run = before ++ .set name key value :: mid ∧
      ((start configs shared).exec before).FirstWrites name key value i u ∧
      ∀ w ∈ openOn ((start configs shared).exec run).txns i, w.id ≠ u.id := by
  have hnew : (start configs shared : System V).Reachable := ⟨configs, shared, [], rfl⟩
  induction run using List.reverseRecOn with
  | nil =>
    have hempty : ((start configs shared : System V).cell i key).chain = .empty := by
      simp [cell_start]
    exact absurd (by rw [exec, List.foldl_nil, hempty]; rfl) hne
  | append_singleton run a ih =>
    have hreachable := hnew.exec run
    have hlast : (start configs shared : System V).exec (run ++ [a]) =
        (((start configs shared).exec run).act a).1 := exec_append _ _ _
    rw [hlast] at hne ⊢
    by_cases hbefore : (((start configs shared : System V).exec run).cell i key).chain.annals = []
    · -- the first entry is made by a commit
      rcases hreachable.annals_act a i key with hsame | ⟨-, hcut⟩ | ⟨name, ts, t, p, rfl, hc⟩
      · exact absurd (hsame.trans hbefore) hne
      · exact absurd (List.prefix_nil.1 (hbefore ▸ hcut.annals_prefix)) hne
      · have hsome : (t.pending? key).isSome := by simp [hc.pending]
        obtain ⟨before, value, mid, u, rfl, hwrites, hid, -⟩ :=
          exists_firstWrites configs shared hc.find hsome
        refine ⟨before, name, value, mid ++ [.commit name ts], u, by simp, hwrites, ?_⟩
        intro w hw
        rw [hid]
        exact hc.id_ne hreachable.sound hw
    · obtain ⟨before, name, value, mid, u, rfl, hwrites, hclosed⟩ := ih hbefore
      refine ⟨before, name, value, mid ++ [a], u, by simp, hwrites, ?_⟩
      intro w hw hid
      -- nobody gets an identity a second time
      have hsteps := (hreachable.sound.act a).steps i key
      have hearlier := ((hnew.exec before).sound.exec (.set name key value :: mid)).steps i key
      rw [← exec_append] at hearlier
      have hlt : u.id < ((start configs shared : System V).exec
          (before ++ .set name key value :: mid)).nextId i :=
        ((hnew.exec before).sound.ids i u ((hnew.exec before).sound.mem_openOn hwrites.find)).trans_le
          (Cell.steps_next hearlier)
      obtain ⟨r, hr, hcontinues⟩ := Cell.steps_continues hsteps hw (hid ▸ hlt)
      exact hclosed r hr (hcontinues.id_eq.symm.trans hid)

end System

end RadixStore
