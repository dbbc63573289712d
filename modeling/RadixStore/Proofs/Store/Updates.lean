import Mathlib
import RadixStore.Proofs.Store.Supersession

/-!
# No update is lost

A transaction that commits a write of a key supersedes the version that was the newest one when it
wrote the key first, and this has stayed the newest one in the meantime. It is the version that the
transaction was shown before, if it was shown any, and nobody else was shown it at or above its
timestamp. So the times from reading to committing of two transactions that write the same key do not
overlap.
-/

namespace RadixStore

variable {V : Type}

namespace System

/-! ### Writes and commits of named transactions -/

/-- By the name `name` the transaction `t`, open on store `i`, writes `key` for the first time, and
    the write takes effect. -/
structure FirstWrites (sys : System V) (name : String) (key : Key) (value : V) (i : Nat)
    (t : Txn V) : Prop where
  find : sys.txns.find name = some ⟨i, t⟩
  free : t.pending? key = none
  answer : ∃ n, (sys.act (.set name key value)).2 = .wrote (.ok ()) n

/-- By the name `name` the transaction `t`, open on store `i` with the write `p` of `key` pending, is
    committed at `ts`, and the commit takes effect. -/
structure Commits (sys : System V) (name : String) (ts : Timestamp) (i : Nat) (t : Txn V)
    (key : Key) (p : Pending V) : Prop where
  find : sys.txns.find name = some ⟨i, t⟩
  pending : t.pending? key = some p
  answer : (sys.act (.commit name ts)).2 = .verdict (.ok ())

variable {sys : System V} {a : Action V} {name : String} {key : Key} {value : V} {i : Nat}
  {t : Txn V} {p : Pending V} {ts : Timestamp}

/-! ### What a name stands for -/

theorem find_of_unbind {txns : Bindings String (OpenTxn V)} {other : String} {o : OpenTxn V}
    (h : (txns.unbind other).find name = some o) : txns.find name = some o := by
  by_cases hname : name = other
  · rw [hname, Bindings.find_unbind_self] at h
    cases h
  · rwa [Bindings.find_unbind_of_ne txns hname] at h

theorem find_of_bind {txns : Bindings String (OpenTxn V)} {other : String} {o x : OpenTxn V}
    (h : (txns.bind other x).find name = some o) :
    name = other ∧ x = o ∨ txns.find name = some o := by
  by_cases hname : name = other
  · rw [hname, Bindings.find_bind_self] at h
    exact Or.inl ⟨hname, Option.some_inj.1 h⟩
  · rw [Bindings.find_bind_of_ne txns x hname] at h
    exact Or.inr h

theorem find_of_discard {other : String} {o : OpenTxn V}
    (h : (sys.discard other).1.txns.find name = some o) : sys.txns.find name = some o :=
  onTxn_induction (P := fun sys' => sys'.txns.find name = some o → sys.txns.find name = some o)
    other id (fun _ _ _ _ _ => find_of_unbind) h

/-- After an action a name stands for the same transaction as before, or for a new one, or for the
    one it stood for with one more write. -/
theorem find_act (hfind : (sys.act a).1.txns.find name = some ⟨i, t⟩) :
    sys.txns.find name = some ⟨i, t⟩ ∨ t.writes = [] ∨
      ∃ key value u s, a = .set name key value ∧ sys.txns.find name = some ⟨i, u⟩ ∧
        sys.stores[i]? = some s ∧ t = (s.set u key value).txn := by
  cases a with
  | openTxn j other readTs update =>
    have htake : ∀ id after, (sys.discard other).1.takeId j = some (id, after) →
        after.txns.find name = some ⟨i, t⟩ → sys.txns.find name = some ⟨i, t⟩ := by
      intro id after hid hold
      obtain ⟨-, htxns, -⟩ := takeId_spec hid
      exact find_of_discard (htxns ▸ hold)
    refine openTxn_induction (P := fun sys' => sys'.txns.find name = some ⟨i, t⟩ → _)
      (fun hold => Or.inl (find_of_discard hold))
      (fun id after hid hold => Or.inl (htake id after hid hold))
      (fun id after s hid _ hbound => ?_) hfind
    rcases find_of_bind hbound with ⟨-, hnew⟩ | hold
    · obtain ⟨-, rfl⟩ := OpenTxn.mk.inj hnew
      exact Or.inr (Or.inl rfl)
    · exact Or.inl (htake id after hid hold)
  | get other key =>
    exact onTxn_induction (P := fun sys' => sys'.txns.find name = some ⟨i, t⟩ → _) other Or.inl
      (fun _ _ _ _ _ => Or.inl) hfind
  | set other key value =>
    refine onTxn_induction (P := fun sys' => sys'.txns.find name = some ⟨i, t⟩ → _) other Or.inl
      (fun j u s hu hs hbound => ?_) hfind
    rcases find_of_bind hbound with ⟨rfl, hnew⟩ | hold
    · obtain ⟨rfl, rfl⟩ := OpenTxn.mk.inj hnew
      exact Or.inr (Or.inr ⟨key, value, u, s, rfl, hu, hs, rfl⟩)
    · exact Or.inl hold
  | commit other ts =>
    exact onTxn_induction (P := fun sys' => sys'.txns.find name = some ⟨i, t⟩ → _) other Or.inl
      (fun _ _ _ _ _ hold => Or.inl (find_of_unbind hold)) hfind
  | discard other => exact Or.inl (find_of_discard hfind)
  | openScan other lower upper dir =>
    exact onTxn_induction (P := fun sys' => sys'.txns.find name = some ⟨i, t⟩ → _) other Or.inl
      (fun _ _ _ _ _ => Or.inl) hfind
  | nextItem n =>
    exact onScan_induction (P := fun sys' => sys'.txns.find name = some ⟨i, t⟩ → _) n Or.inl
      (fun _ _ _ _ _ _ _ => Or.inl) hfind
  | closeScan n => exact Or.inl hfind
  | gc j =>
    exact onStore_induction (P := fun sys' => sys'.txns.find name = some ⟨i, t⟩ → _) j Or.inl
      (fun _ _ => Or.inl) hfind
  | advanceWatermark j ts =>
    exact onStore_induction (P := fun sys' => sys'.txns.find name = some ⟨i, t⟩ → _) j Or.inl
      (fun _ _ => Or.inl) hfind
  | takeId j =>
    refine act_takeId_induction (P := fun sys' => sys'.txns.find name = some ⟨i, t⟩ → _) j Or.inl
      (fun id after hid hold => Or.inl ?_) hfind
    obtain ⟨-, htxns, -⟩ := takeId_spec hid
    exact htxns ▸ hold

/-! ### What first writes and commits mean for the key -/

theorem FirstWrites.cell (h : sys.Sound) (hw : sys.FirstWrites name key value i t) :
    ∃ c installed rest, openOn sys.txns i = t ::ₘ rest ∧
      (sys.cell i key).chain.install t.id t.readTs value = .ok (c, installed) ∧
      (sys.act (.set name key value)).1.cell i key =
        ⟨c, t.stage key ⟨installed, value⟩ ::ₘ rest, sys.nextId i⟩ := by
  obtain ⟨hopen, -⟩ := openOn_of_find h.names hw.find
  obtain ⟨n, hanswer⟩ := hw.answer
  cases hs : sys.stores[i]? with
  | none => simp [act, onTxn, onStore, hw.find, hs] at hanswer
  | some s =>
    have hlt : i < sys.stores.length := (List.getElem?_eq_some_iff.1 hs).1
    have hact : (sys.act (.set name key value)).1 =
        { sys.setStore i (s.set t key value).store with
          txns := sys.txns.bind name ⟨i, (s.set t key value).txn⟩ } := by
      simp [act, onTxn, onStore, hw.find, hs]
    have hverdict : (s.set t key value).verdict = .ok () := by
      simp [act, onTxn, onStore, hw.find, hs] at hanswer
      exact hanswer.1
    have hstore : (sys.act (.set name key value)).1.stores[i]? = some (s.set t key value).store := by
      rw [hact]
      exact List.getElem?_set_self hlt
    obtain ⟨-, ⟨e, herror, -⟩ | ⟨c, installed, -, -, hok, htxn, hchain⟩ | ⟨p, c, j, -, hp, -⟩⟩ :=
      Store.set_cases (h.stores i s hs).valid t key value
    · rw [hverdict] at herror
      cases herror
    · refine ⟨c, installed, _, hopen, ?_, ?_⟩
      · rw [cell_of_store hs]
        exact hok
      · rw [cell_of_store hstore, Store.cell, hchain, Function.update_self, hact]
        dsimp only
        rw [openOn_bind_self, htxn]
        rfl
    · rw [hw.free] at hp
      cases hp

theorem Commits.cell (h : sys.Sound) (hc : sys.Commits name ts i t key p) :
    t.readTs ≤ ts ∧ ∃ s rest, sys.stores[i]? = some s ∧ openOn sys.txns i = t ::ₘ rest ∧
      (((sys.act (.commit name ts)).1.cell i key).chain =
          (sys.cell i key).chain.commit p.installed ts ∨
        s.config.inlineGc = true ∧ ∃ safepoint, ((sys.act (.commit name ts)).1.cell i key).chain =
          ((sys.cell i key).chain.commit p.installed ts).pruned safepoint) := by
  obtain ⟨hopen, -⟩ := openOn_of_find h.names hc.find
  have hanswer := hc.answer
  cases hs : sys.stores[i]? with
  | none => simp [act, onTxn, onStore, hc.find, hs] at hanswer
  | some s =>
    have hlt : i < sys.stores.length := (List.getElem?_eq_some_iff.1 hs).1
    have hverdict : (s.commit t ts).verdict = .ok () := by
      simpa [act, onTxn, onStore, hc.find, hs] using hanswer
    have hstore : (sys.act (.commit name ts)).1.stores[i]? = some (s.commit t ts).store := by
      have hset : (sys.stores.set i (s.commit t ts).store)[i]? = some (s.commit t ts).store :=
        List.getElem?_set_self hlt
      simpa [act, onTxn, onStore, hc.find, hs, setStore] using hset
    have hts : t.readTs ≤ ts := by
      by_contra hlt
      simp [Store.commit_of_lt (not_le.1 hlt)] at hverdict
    have hsound := h.stores i s hs
    have hw := h.nodup_writes hc.find hs
    obtain ⟨hrechained, hchain⟩ := Store.publish_spec hsound.valid hw ts
    have hpublish := hchain key
    rw [hc.pending] at hpublish
    refine ⟨hts, s, _, rfl, hopen, ?_⟩
    rw [cell_of_store hs, cell_of_store hstore]
    show (s.commit t ts).store.chain key = _ ∨ _ ∧ ∃ _, (s.commit t ts).store.chain key = _
    rcases (Store.commit_cases hts).2 with hclosed | ⟨hinline, htrimmed⟩
    · rw [hclosed]
      exact Or.inl hpublish
    · rw [htrimmed]
      have hvalid : ((s.publish ts t.writes).closeTxn t).index.Valid :=
        hrechained.valid hsound.valid
      rcases (Store.foldl_trimChain_spec hvalid _ (t.writes.map Prod.fst)).2 key with hsame | htrim
      · exact Or.inl (hsame.trans hpublish)
      · have hconfig : s.config.inlineGc = true := hrechained.config_eq ▸ hinline
        exact Or.inr ⟨hconfig, _, htrim.trans (congrArg _ hpublish)⟩

theorem commits_of_verdict (hfind : sys.txns.find name = some ⟨i, t⟩) (hp : t.pending? key = some p)
    (hverdict : (sys.stores[i]?.map fun s => (s.commit t ts).verdict) = some (.ok ())) :
    sys.Commits name ts i t key p := by
  obtain ⟨s, hs, hverdict⟩ := Option.map_eq_some_iff.1 hverdict
  exact ⟨hfind, hp, by simp [act, onTxn, onStore, hfind, hs, hverdict]⟩

/-! ### The first write behind a pending one -/

/-- A write that is pending after an action was pending before, or is made by the action. -/
theorem pending_act (h : sys.Sound) (hfind : (sys.act a).1.txns.find name = some ⟨i, t⟩)
    (hp : (t.pending? key).isSome) :
    (∃ u, sys.txns.find name = some ⟨i, u⟩ ∧ u.id = t.id ∧ u.readTs = t.readTs ∧
      (u.pending? key).isSome) ∨
      ∃ value u, a = .set name key value ∧ sys.FirstWrites name key value i u ∧ u.id = t.id ∧
        u.readTs = t.readTs := by
  rcases find_act hfind with hsame | hnew | ⟨k, value, u, s, rfl, hu, hs, rfl⟩
  · exact Or.inl ⟨t, hsame, rfl, rfl, hp⟩
  · simp [Txn.pending?, hnew] at hp
  · obtain ⟨-, ⟨e, -, htxn, -⟩ | ⟨c, j, hok, hfree, -, htxn, -⟩ | ⟨p, c, j, -, hown, -, htxn, -⟩⟩ :=
      Store.set_cases (h.stores i s hs).valid u k value
    · rw [htxn] at hp ⊢
      exact Or.inl ⟨u, hu, rfl, rfl, hp⟩
    · rw [htxn] at hp ⊢
      by_cases hk : key = k
      · subst hk
        refine Or.inr ⟨value, u, rfl, ⟨hu, hfree, (s.set u key value).txn.writes.length, ?_⟩, rfl, rfl⟩
        simp [act, onTxn, onStore, hu, hs, hok]
      · rw [Txn.pending?_stage_of_ne u _ hk] at hp
        exact Or.inl ⟨u, hu, rfl, rfl, hp⟩
    · rw [htxn] at hp ⊢
      by_cases hk : key = k
      · subst hk
        exact Or.inl ⟨u, hu, rfl, rfl, by simp [hown]⟩
      · rw [Txn.pending?_stage_of_ne u _ hk] at hp
        exact Or.inl ⟨u, hu, rfl, rfl, hp⟩

theorem exists_firstWrites (configs : List Config) (shared : Bool) {run : List (Action V)}
    (hfind : ((start configs shared : System V).exec run).txns.find name = some ⟨i, t⟩)
    (hp : (t.pending? key).isSome) :
    ∃ before value mid u, run = before ++ .set name key value :: mid ∧
      ((start configs shared).exec before).FirstWrites name key value i u ∧ u.id = t.id ∧
      u.readTs = t.readTs := by
  induction run using List.reverseRecOn generalizing t with
  | nil => simp [start, exec, Bindings.find] at hfind
  | append_singleton run a ih =>
    rw [exec_append] at hfind
    have hsound := ((sound_start configs shared).exec run).sound
    rcases pending_act hsound hfind hp with ⟨u, hu, hid, hts, hpu⟩ | ⟨value, u, rfl, hw, hid, hts⟩
    · obtain ⟨before, value, mid, r, rfl, hw, hid', hts'⟩ := ih hu hpu
      exact ⟨before, value, mid ++ [a], r, by simp, hw, hid'.trans hid, hts'.trans hts⟩
    · exact ⟨run, value, [], u, rfl, hw, hid, hts⟩

/-! ### What is shown -/

theorem marks_of_readBy {c c' : Chain V} (h : Store.ReadBy t c c') : c'.marks = c.marks :=
  Chain.map_timeline_congr (h.map_versions fun _ _ => rfl)

/-- Whoever is shown a value has not written the key, and finds the chain changed by nothing but
    reads within the action. -/
theorem Tells.shown (h : sys.Reachable) {v : V} (ht : sys.Tells a i t key (.found (.value v))) :
    t ∈ openOn sys.txns i ∧ t.pending? key = none ∧ ∃ c,
      (⟨c, openOn sys.txns i, sys.nextId i⟩ : Cell V).Sound key ∧
      c.marks = (sys.cell i key).chain.marks ∧ (c.look t.readTs t.id).1 = .value v ∧
      ∀ rest, Cell.Steps key ⟨(c.look t.readTs t.id).2, openOn sys.txns i, sys.nextId i⟩
        ((sys.exec (a :: rest)).cell i key) := by
  obtain ⟨hmem, c, hbefore, htold⟩ := ht.cell h.sound
  have hcell := (h.cell_sound i key).steps (hbefore.steps hmem _)
  cases hp : t.pending? key with
  | some p =>
    rw [hp] at htold
    cases htold
  | none =>
    rw [hp] at htold
    obtain ⟨hlook, hsteps⟩ := htold
    refine ⟨hmem, rfl, c, hcell, marks_of_readBy hbefore, (Told.found.inj hlook).symm, ?_⟩
    intro rest
    exact hsteps.trans (((h.sound.act a).sound.exec rest).steps i key)

/-! ### From the first write on -/

variable {w : Txn V} {done rest : List (Action V)}

/-- A first write gets past the newest version and all reads of it. -/
theorem FirstWrites.admitted (h : sys.Reachable) (hw : sys.FirstWrites name key value i t) :
    ∀ m ∈ (sys.cell i key).chain.newest?, m.beginTs ≤ t.readTs ∧ ∀ ts reader,
      (sys.cell i key).chain.Guarded m.serial ts reader →
        ts < t.readTs ∨ ts = t.readTs ∧ t.id = reader := by
  obtain ⟨c, installed, others, hopen, hok, -⟩ := hw.cell h.sound
  obtain ⟨draft, hist, hholds⟩ := h.holds_cons key hopen
  intro m hm
  exact hholds.admitted hw.free hok hm

theorem FirstWrites.pending (h : sys.Reachable) (hw : sys.FirstWrites name key value i t) :
    ((sys.act (.set name key value)).1.cell i key).chain.newest? =
        (sys.cell i key).chain.newest? ∧
      ∃ u ∈ openOn (sys.act (.set name key value)).1.txns i, u.id = t.id ∧
        u.readTs = t.readTs ∧ (u.pending? key).isSome := by
  obtain ⟨c, installed, others, hopen, hok, hafter⟩ := hw.cell h.sound
  obtain ⟨draft, hist, hholds⟩ := h.holds_cons key hopen
  refine ⟨?_, t.stage key ⟨installed, value⟩, ?_, rfl, rfl, by simp⟩
  · have hnew := (hholds.install hw.free hok).2.1.shape
    rw [hafter, hnew.newest?_eq]
    exact hholds.shape.newest?_eq.symm
  · show _ ∈ ((sys.act (.set name key value)).1.cell i key).txns
    rw [hafter]
    exact Multiset.mem_cons_self _ _

/-- As long as the transaction is open the newest version stays the newest one, and the write is
    pending. -/
theorem FirstWrites.lasts (h : sys.Reachable) (hw : sys.FirstWrites name key value i t)
    (hopen : w ∈ openOn (sys.exec (.set name key value :: done ++ rest)).txns i)
    (hid : w.id = t.id) :
    ((sys.exec (.set name key value :: done)).cell i key).chain.newest? =
        (sys.cell i key).chain.newest? ∧
      ∃ u ∈ openOn (sys.exec (.set name key value :: done)).txns i, u.id = t.id ∧
        u.readTs = t.readTs ∧ (u.pending? key).isSome := by
  obtain ⟨hnewest, r, hr, hrid, hrts, hrp⟩ := hw.pending h
  have hwrite : (sys.act (.set name key value)).1.Reachable := h.act _
  have hsteps := (hwrite.sound.exec done).steps i key
  have hmore : Cell.Steps key ((sys.exec (.set name key value :: done)).cell i key)
      ((sys.exec (.set name key value :: done ++ rest)).cell i key) := by
    rw [exec_append]
    exact ((h.exec (.set name key value :: done)).sound.exec rest).steps i key
  have hlt : w.id < ((sys.exec (.set name key value :: done)).cell i key).next := by
    rw [hid, ← hrid]
    exact ((hwrite.cell_sound i key).below r hr).trans_le (Cell.steps_next hsteps)
  obtain ⟨u, hu, hcontinues⟩ := Cell.steps_continues hmore hopen hlt
  have huid : u.id = r.id := hcontinues.id_eq.symm.trans (hid.trans hrid.symm)
  have hsame := (hwrite.cell_sound i key).continues hsteps hr hu huid
  refine ⟨?_, u, hu, huid.trans hrid, hsame.readTs_eq.trans hrts, ?_⟩
  · exact ((hwrite.cell_sound i key).newest?_of_writer hsteps hr hrp hu huid).trans hnewest
  · by_contra hfree
    simp [hsame.free (by simpa using hfree)] at hrp

/-! ### Reads before and after the first write -/

variable {r : Txn V} {v : V}

/-- What the transaction was shown before its first write is still the newest version then. -/
theorem Tells.newest_at_write (h : sys.Reachable) (ht : sys.Tells a i r key (.found (.value v)))
    (hw : (sys.exec (a :: rest)).FirstWrites name key value i t) (hid : r.id = t.id) :
    (sys.cell i key).chain.found? t.readTs = ((sys.exec (a :: rest)).cell i key).chain.newest? ∧
      ((sys.exec (a :: rest)).cell i key).chain.newest?.map Mark.value = some v := by
  obtain ⟨hr, hfree, c, hsound, hmarks, hlook, hsteps⟩ := ht.shown h
  have hread : (⟨(c.look r.readTs r.id).2, openOn sys.txns i, sys.nextId i⟩ : Cell V).Sound key :=
    hsound.step (.read hr)
  have htxn : t ∈ ((sys.exec (a :: rest)).cell i key).txns :=
    (h.exec (a :: rest)).sound.mem_openOn hw.find
  have hts : t.readTs = r.readTs := (hread.continues (hsteps rest) hr htxn hid.symm).readTs_eq
  obtain ⟨m, hfound, hvalue⟩ := Chain.found?_of_look hlook
  have hsame : ((sys.exec (a :: rest)).cell i key).chain.found? r.readTs = some m := by
    have hsecured := hsound.secured_of_look hr hfree hlook
    rw [hsecured.found?_eq hread (hsteps rest) htxn hid.symm hw.free, ← hfound]
    exact Chain.found?_congr (Chain.marks_look c _ _) _
  have hnewest : ((sys.exec (a :: rest)).cell i key).chain.newest? = some m := by
    rw [← hsame, ← hts]
    refine (Chain.found?_of_newest ?_ (Chain.isSome_newest?_of_found? hsame)).symm
    exact fun m hm => (hw.admitted (h.exec _) m hm).1
  refine ⟨?_, ?_⟩
  · rw [hnewest, ← hfound, hts]
    exact (Chain.found?_congr hmarks _).symm
  · rw [hnewest, ← hvalue]
    rfl

/-- What anybody else was shown before, not below the timestamp of the transaction, is another
    version than the newest one at the first write. -/
theorem Tells.found_ne_newest (h : sys.Reachable) (ht : sys.Tells a i r key (.found (.value v)))
    (hw : (sys.exec (a :: rest)).FirstWrites name key value i t) (hne : r.id ≠ t.id)
    (hle : t.readTs ≤ r.readTs) : ∀ m ∈ ((sys.exec (a :: rest)).cell i key).chain.newest?,
    (sys.cell i key).chain.found? r.readTs ≠ some m := by
  obtain ⟨hr, hfree, c, hsound, hmarks, hlook, hsteps⟩ := ht.shown h
  obtain ⟨draft, hist, hholds⟩ := hsound.holds
  intro m hm hfound
  rw [← Chain.found?_congr hmarks] at hfound
  have hguarded := Cell.steps_guarded (hsteps rest) (hholds.shape.guarded_of_found? hfound r.id)
  rcases (hw.admitted (h.exec _) m hm).2 _ _ hguarded with hlt | ⟨-, heq⟩
  · exact absurd hle (not_le.2 hlt)
  · exact hne heq.symm

/-- While the write of another transaction is pending, nobody is shown a value at or above its
    timestamp. -/
theorem Tells.lt_of_pending (h : sys.Reachable) (ht : sys.Tells a i r key (.found (.value v)))
    (hu : w ∈ openOn sys.txns i) (hp : (w.pending? key).isSome) (hne : r.id ≠ w.id) :
    r.readTs < w.readTs := by
  obtain ⟨hr, hfree, c, hsound, -, hlook, -⟩ := ht.shown h
  obtain ⟨draft, hist, hholds⟩ := hsound.holds
  obtain ⟨q, hq⟩ := Option.isSome_iff_exists.1 hp
  exact hholds.lt_of_look hu hq hne.symm hlook

/-! ### Commits -/

/-- The version that a commit supersedes is the newest one so far and the one noted by the transaction,
    and does not begin after the transaction reads, nor the transaction read after the commit. -/
theorem Commits.supersedes (h : sys.Reachable) (hc : sys.Commits name ts i t key p) :
    p.installed.prior = (sys.cell i key).chain.newest?.map Mark.serial ∧
      (∀ m ∈ (sys.cell i key).chain.newest?, m.beginTs ≤ t.readTs) ∧ t.readTs ≤ ts := by
  obtain ⟨hts, s, others, -, hopen, -⟩ := hc.cell h.sound
  obtain ⟨draft, hist, hholds⟩ := h.holds_cons key hopen
  exact ⟨hholds.prior_eq hc.pending, hholds.newest?_begun hc.pending, hts⟩

/-- After a commit the new version is in front, and the one that it supersedes ends where it begins,
    if that one is still linked. -/
theorem Commits.after (h : sys.Reachable) (hc : sys.Commits name ts i t key p) :
    ((sys.act (.commit name ts)).1.cell i key).chain.newest? =
        some ⟨p.installed.node, ts, p.value⟩ ∧
      (∀ m ∈ (sys.cell i key).chain.newest?,
        ∀ v ∈ ((sys.act (.commit name ts)).1.cell i key).chain.timeline,
          v.serial = m.serial → v.endTs = ts) ∧
      ∀ s, sys.stores[i]? = some s → s.config.inlineGc = false →
        ((sys.act (.commit name ts)).1.cell i key).chain.marks =
          ⟨p.installed.node, ts, p.value⟩ :: (sys.cell i key).chain.marks := by
  obtain ⟨hts, s, others, hs, hopen, hafter⟩ := hc.cell h.sound
  obtain ⟨draft, hist, hholds⟩ := h.holds_cons key hopen
  have hmarks := hholds.marks_commit hc.pending hts
  have hended := fun m hm (v : Version V) => hholds.endTs_commit (m := m) (x := v) hc.pending hts hm
  obtain ⟨serial, -, hnew⟩ := hholds.commit hc.pending hts
  have hnewest : ((sys.cell i key).chain.commit p.installed ts).newest? =
      some ⟨p.installed.node, ts, p.value⟩ := by
    rw [Chain.newest?, hmarks, List.head?_cons]
  rcases hafter with hafter | ⟨hinline, safepoint, hafter⟩
  · rw [hafter]
    exact ⟨hnewest, hended, fun _ _ _ => hmarks⟩
  · rw [hafter]
    refine ⟨hnew.shape.newest?_pruned.trans hnewest, ?_, ?_⟩
    · intro m hm v hv
      exact hended m hm v (Chain.mem_timeline_of_pruned hv)
    · intro r hr hoff
      obtain rfl : s = r := Option.some_inj.1 (hs.symm.trans hr)
      rw [hinline] at hoff
      cases hoff

theorem Commits.le_readTs (h : sys.Reachable) (hc : sys.Commits name ts i t key p) {name' : String}
    {ts' : Timestamp} {p' : Pending V}
    (hc' : (sys.exec (.commit name ts :: rest)).Commits name' ts' i w key p') : ts ≤ w.readTs := by
  have hact : (sys.act (.commit name ts)).1.Reachable := h.act _
  obtain ⟨n, hn, hle⟩ := (hact.cell_sound i key).exists_newest? ((hact.sound.exec rest).steps i key)
    (hc.after h).1
  exact hle.trans ((hc'.supersedes (h.exec _)).2.1 n hn)

/-! ### Supersession -/

/-- After the actions `before` of a run the transaction `w` makes its first write of `key` on store
    `i`, by the action `write`. After `mid` it has `p` pending and is committed at `ts`, by the action
    `commit`. The version superseded is `old`, if any. -/
structure Supersedes (sys : System V) (before : List (Action V)) (write : Action V)
    (mid : List (Action V)) (commit : Action V) (i : Nat) (key : Key) (w : Txn V) (p : Pending V)
    (ts : Timestamp) (old : Option (Mark V)) : Prop where
  /-- It is the newest committed version from before the first write up to the commit, -/
  current : ∀ done rest, write :: mid = done ++ rest →
    ((sys.exec (before ++ done)).cell i key).chain.newest? = old
  /-- and the one noted as such by the transaction. -/
  prior : p.installed.prior = old.map Mark.serial
  /-- It does not begin after the transaction reads, and that is not after the commit. -/
  begun : ∀ m ∈ old, m.beginTs ≤ w.readTs
  readTs_le : w.readTs ≤ ts
  /-- Whatever the transaction was shown before the first write was this version. -/
  shown : ∀ done a rest t v, before = done ++ a :: rest →
    (sys.exec done).Tells a i t key (.found (.value v)) → t.id = w.id →
    ((sys.exec done).cell i key).chain.found? w.readTs = old ∧ old.map Mark.value = some v
  /-- Nobody else was shown it at or above the timestamp of the transaction. -/
  unshown : ∀ done a rest u v, before ++ write :: mid = done ++ a :: rest →
    (sys.exec done).Tells a i u key (.found (.value v)) → u.id ≠ w.id → w.readTs ≤ u.readTs →
    ∀ m ∈ old, ((sys.exec done).cell i key).chain.found? u.readTs ≠ some m
  /-- The new version begins with the commit, -/
  newest : (((sys.exec (before ++ write :: mid)).act commit).1.cell i key).chain.newest? =
    some ⟨p.installed.node, ts, p.value⟩
  /-- and there the old one ends. -/
  ended : ∀ m ∈ old, ∀ v ∈ (((sys.exec (before ++ write :: mid)).act commit).1.cell i key).chain.timeline,
    v.serial = m.serial → v.endTs = ts
  /-- It stays linked unless the store trims the chains on commits. -/
  linked : ∀ s, (sys.exec (before ++ write :: mid)).stores[i]? = some s →
    s.config.inlineGc = false →
    (((sys.exec (before ++ write :: mid)).act commit).1.cell i key).chain.marks =
      ⟨p.installed.node, ts, p.value⟩ ::
        ((sys.exec (before ++ write :: mid)).cell i key).chain.marks

theorem not_tells_set {told : Told V} {other : Key} :
    ¬ sys.Tells (.set name key value) i t other told := by
  intro ht
  cases ht

section Between

variable {before mid : List (Action V)}

/-- Between its first write and its commit the transaction is open with the write pending, and the
    newest version stays the newest one. -/
theorem FirstWrites.lasts_to_commit (h : sys.Reachable)
    (hw : (sys.exec before).FirstWrites name key value i t)
    (hc : (sys.exec (before ++ .set name key value :: (done ++ rest))).Commits name ts i w key p)
    (hid : t.id = w.id) :
    ((sys.exec (before ++ .set name key value :: done)).cell i key).chain.newest? =
        ((sys.exec before).cell i key).chain.newest? ∧
      ∃ u ∈ openOn (sys.exec (before ++ .set name key value :: done)).txns i, u.id = t.id ∧
        u.readTs = t.readTs ∧ (u.pending? key).isSome := by
  have hmem : w ∈ openOn ((sys.exec before).exec
      (.set name key value :: done ++ rest)).txns i := by
    rw [← exec_append, List.cons_append]
    exact (h.exec _).sound.mem_openOn hc.find
  rw [exec_append]
  exact hw.lasts (h.exec before) hmem hid.symm

/-- Up to the commit nobody else is shown the newest version at or above the timestamp of the
    transaction: not before the first write, as that one was admitted, and not after it, as the version
    is held. -/
theorem FirstWrites.unshown (h : sys.Reachable)
    (hw : (sys.exec before).FirstWrites name key value i t)
    (hc : (sys.exec (before ++ .set name key value :: mid)).Commits name ts i w key p)
    (hid : t.id = w.id) (heq : before ++ .set name key value :: mid = done ++ a :: rest)
    (ht : (sys.exec done).Tells a i r key (.found (.value v))) (hne : r.id ≠ t.id)
    (hle : t.readTs ≤ r.readTs) : ∀ m ∈ ((sys.exec before).cell i key).chain.newest?,
    ((sys.exec done).cell i key).chain.found? r.readTs ≠ some m := by
  intro m hm
  rcases List.append_eq_append_iff.1 heq with ⟨late, rfl, hlate⟩ | ⟨early, rfl, hearly⟩
  · cases late with
    | nil =>
      obtain ⟨rfl, -⟩ := List.cons.inj hlate
      exact absurd ht not_tells_set
    | cons b late =>
      obtain ⟨rfl, rfl⟩ := List.cons.inj hlate
      obtain ⟨-, u, hu, huid, huts, hup⟩ := hw.lasts_to_commit h hc hid
      have hlt := ht.lt_of_pending (h.exec _) hu hup (huid ▸ hne)
      exact absurd (huts ▸ hlt) (not_lt.2 hle)
  · cases early with
    | nil =>
      obtain ⟨rfl, -⟩ := List.cons.inj hearly
      exact absurd ht not_tells_set
    | cons b early =>
      obtain ⟨rfl, -⟩ := List.cons.inj hearly
      rw [exec_append] at hw hm
      exact ht.found_ne_newest (h.exec done) hw hne hle m hm

theorem FirstWrites.supersedes (h : sys.Reachable)
    (hw : (sys.exec before).FirstWrites name key value i t)
    (hc : (sys.exec (before ++ .set name key value :: mid)).Commits name ts i w key p)
    (hid : t.id = w.id) (hts : t.readTs = w.readTs) :
    sys.Supersedes before (.set name key value) mid (.commit name ts) i key w p ts
      ((sys.exec before).cell i key).chain.newest? := by
  have hcurrent : ((sys.exec (before ++ .set name key value :: mid)).cell i key).chain.newest? =
      ((sys.exec before).cell i key).chain.newest? := by
    rw [← List.append_nil mid] at hc
    exact (hw.lasts_to_commit h hc hid).1
  have hsupersedes := hc.supersedes (h.exec _)
  have hafter := hc.after (h.exec _)
  rw [hcurrent] at hsupersedes hafter
  obtain ⟨hprior, hbegun, hle⟩ := hsupersedes
  obtain ⟨hnewest, hended, hlinked⟩ := hafter
  refine ⟨?_, hprior, hbegun, hle, ?_, ?_, hnewest, hended, hlinked⟩
  · intro done rest heq
    cases done with
    | nil => rw [List.append_nil]
    | cons b done =>
      obtain ⟨rfl, rfl⟩ := List.cons.inj heq
      exact (hw.lasts_to_commit h hc hid).1
  · rintro done a rest r v rfl ht hrid
    rw [exec_append] at hw ⊢
    rw [← hts]
    exact ht.newest_at_write (h.exec done) hw (hrid.trans hid.symm)
  · intro done a rest r v heq ht hne hle
    exact hw.unshown h hc hid heq ht (fun hrt => hne (hrt.trans hid)) (hts ▸ hle)

end Between

/-- No update is lost. Whenever in a run of new stores a transaction commits a write of a key, it wrote
    the key first at some moment before, and from then on to the commit the version that it supersedes
    was the newest one: the transaction was shown this version before, if any, and nobody else was,
    at or above its timestamp. Whoever commits a write of the key later reads at the commit or after
    it. -/
theorem updates_not_lost (configs : List Config) (shared : Bool) {run : List (Action V)}
    (hc : ((start configs shared).exec run).Commits name ts i w key p) :
    (∃ before value mid u old, run = before ++ .set name key value :: mid ∧
      ((start configs shared).exec before).FirstWrites name key value i u ∧ u.id = w.id ∧
      u.readTs = w.readTs ∧
      (start configs shared).Supersedes before (.set name key value) mid (.commit name ts) i key w p
        ts old) ∧
    ∀ more name' ts' w' p', ((start configs shared).exec (run ++ .commit name ts :: more)).Commits
      name' ts' i w' key p' → ts ≤ w'.readTs := by
  have hreachable : ∀ actions : List (Action V), ((start configs shared).exec actions).Reachable :=
    fun actions => ⟨configs, shared, actions, rfl⟩
  refine ⟨?_, ?_⟩
  · have hsome : (w.pending? key).isSome := by simp [hc.pending]
    obtain ⟨before, value, mid, u, rfl, hw, hid, hts⟩ :=
      exists_firstWrites configs shared hc.find hsome
    exact ⟨before, value, mid, u, _, rfl, hw, hid, hts,
      hw.supersedes (hreachable []) hc hid hts⟩
  · intro more name' ts' w' p' hc'
    rw [exec_append] at hc'
    exact hc.le_readTs (hreachable run) hc'

/-- A transaction reads a key and writes it, another one has read it below, and a third one writes it
    after the commit. -/
theorem updates_not_lost_amid_reads : ∃ (before mid : List (Action Nat)) (value : Nat) (u : Txn Nat)
      (old : Option (Mark Nat)),
    [.openTxn 0 "w" 1 true, .set "w" [7] 5, .commit "w" 2, .openTxn 0 "r" 2 false, .get "r" [7],
      .openTxn 0 "w" 3 true, .get "w" [7], .set "w" [7] 6, .get "r" [7]] =
      before ++ .set "w" [7] value :: mid ∧
    (start [.standard] false).Supersedes before (.set "w" [7] value) mid (.commit "w" 9) 0 [7]
      ⟨3, 3, true, [([7], ⟨⟨1, some 0⟩, 6⟩)]⟩ ⟨⟨1, some 0⟩, 6⟩ 9 old ∧
    u.id = 3 ∧ 9 ≤ 10 := by
  have hcommits : ((start [.standard] false : System Nat).exec [.openTxn 0 "w" 1 true, .set "w" [7] 5,
      .commit "w" 2, .openTxn 0 "r" 2 false, .get "r" [7], .openTxn 0 "w" 3 true, .get "w" [7],
      .set "w" [7] 6, .get "r" [7]]).Commits "w" 9 0 ⟨3, 3, true, [([7], ⟨⟨1, some 0⟩, 6⟩)]⟩ [7]
        ⟨⟨1, some 0⟩, 6⟩ :=
    commits_of_verdict (by decide +kernel) (by decide +kernel) (by decide +kernel)
  have hlater : ((start [.standard] false : System Nat).exec ([.openTxn 0 "w" 1 true, .set "w" [7] 5,
      .commit "w" 2, .openTxn 0 "r" 2 false, .get "r" [7], .openTxn 0 "w" 3 true, .get "w" [7],
      .set "w" [7] 6, .get "r" [7]] ++ .commit "w" 9 :: [.openTxn 0 "v" 10 true,
        .set "v" [7] 8])).Commits "v" 10 0 ⟨4, 10, true, [([7], ⟨⟨2, some 1⟩, 8⟩)]⟩ [7]
        ⟨⟨2, some 1⟩, 8⟩ :=
    commits_of_verdict (by decide +kernel) (by decide +kernel) (by decide +kernel)
  obtain ⟨⟨before, value, mid, u, old, hrun, -, hid, -, hsupersedes⟩, hfirst⟩ :=
    updates_not_lost [.standard] false hcommits
  exact ⟨before, mid, value, u, old, hrun, hsupersedes, hid, hfirst _ _ _ _ _ hlater⟩

end System

end RadixStore
