import Mathlib
import RadixStore.Proofs.Store.Annals

/-!
# When a refused write may take effect later

A write that is refused as contended may take effect when it is tried again, once the other writer has
ended. One that is refused as a conflict stays refused, with a single exception: when nobody stands in
the way but one transaction that reads at the same timestamp, and that transaction commits a write of
its own at this very timestamp, then the version it had read is no longer the one to be superseded.
-/

namespace RadixStore

variable {V : Type}

/-! ### Conflicts -/

namespace Cell

variable {c : Chain V} {txns : Multiset (Txn V)} {t : Txn V} {key : Key} {next : TxnId}
  {read : Serial → Txn V → Prop}

/-- A conflict is about the newest version, which nobody is about to supersede then: it begins too late,
    or somebody has read it too late. -/
theorem Sound.exists_conflict (h : (⟨c, t ::ₘ txns, next⟩ : Cell V).Sound key)
    (hfree : ¬ (⟨c, t ::ₘ txns, next⟩ : Cell V).Contended t)
    (hconflict : ¬ (⟨c, t ::ₘ txns, next⟩ : Cell V).Admissible key t read) :
    ∃ v, c.versions.head? = some v ∧ v.committed = true ∧ c.newest? = some v.mark ∧
      (∀ u ∈ t ::ₘ txns, u.pending? key = none) ∧
      (v.beginTs ≤ t.readTs → ∃ u, read v.serial u ∧
        ¬ (u.readTs < t.readTs ∨ u.readTs = t.readTs ∧ u.id = t.id)) := by
  have hown : t.pending? key = none := by
    by_contra hown
    exact hconflict (Or.inl (Option.ne_none_iff_isSome.1 hown))
  obtain ⟨draft, hist, hholds⟩ := h.holds
  have hversions : c.versions = layout draft hist := hholds.shape.versions_eq
  cases draft with
  | some d => exact absurd (h.contended_of_draft hown hholds) hfree
  | none =>
    have hversions : c.versions = hist := hversions
    have hpending : ∀ u ∈ t ::ₘ txns, u.pending? key = none := by
      intro u hu
      cases hp : u.pending? key with
      | none => rfl
      | some p =>
        obtain ⟨serial, hdraft, -⟩ := hholds.drafted hu hp
        cases hdraft
    cases hist with
    | nil => exact absurd (Or.inr (Or.inl hversions)) hconflict
    | cons head older =>
      have hcommitted : head.committed = true := hholds.shape.history.committed (by simp)
      have hhead : c.versions.head? = some head := by rw [hversions, List.head?_cons]
      refine ⟨head, hhead, hcommitted, hholds.shape.newest?_eq, hpending, ?_⟩
      intro hbegin
      by_contra hpast
      refine hconflict (Or.inr (Or.inr ⟨head, hhead, hcommitted, hbegin, ?_⟩))
      intro u hu
      by_contra hstuck
      exact hpast ⟨u, hu, hstuck⟩

end Cell

namespace System

variable {sys : System V} {i : Nat} {t u w : Txn V} {key : Key} {name : String}

/-! ### The newest version -/

/-- The newest version of `key` on store `i` is the same in `sys'`. -/
def KeepsNewest (sys : System V) (i : Nat) (key : Key) (sys' : System V) : Prop :=
  (sys'.cell i key).chain.newest? = (sys.cell i key).chain.newest?

/-- Only a commit of a transaction that has written the key puts a new version in front. -/
theorem Reachable.keepsNewest_act (h : sys.Reachable) (a : Action V) (i : Nat) (key : Key) :
    sys.KeepsNewest i key (sys.act a).1 ∨
      ∃ name ts t p, a = .commit name ts ∧ sys.Commits name ts i t key p := by
  rcases h.annals_act a i key with hsame | ⟨-, hcut⟩ | hcommits
  · exact Or.inl (Chain.newest?_of_annals hsame)
  · exact Or.inl hcut.newest_eq
  · exact Or.inr hcommits

/-! ### Writers that are kept out -/

/-- An open transaction has a name. -/
theorem Sound.exists_name (h : sys.Sound) (hu : u ∈ openOn sys.txns i) :
    ∃ name, sys.txns.find name = some ⟨i, u⟩ := by
  obtain ⟨b, hb, rfl⟩ := List.mem_map.1 (Multiset.mem_coe.1 hu)
  obtain ⟨hmem, hstore⟩ := List.mem_filter.1 hb
  have hstore : b.2.store = i := of_decide_eq_true hstore
  refine ⟨b.1, (Bindings.mem_iff_find h.names).1 ?_⟩
  rw [← hstore]
  exact hmem

/-- Whoever reads at `ts` and cannot get past these reads of the version `m` is kept out: either there is
    a version that begins after `ts`, or `m` is still the newest one and has these reads against it, and
    whoever has written the key got past them. -/
inductive KeptOut (sys : System V) (i : Nat) (key : Key) (ts : Timestamp) (m : Mark V)
    (reads : Timestamp → TxnId → Prop) : Prop
  | begun {n : Mark V} : (sys.cell i key).chain.newest? = some n → ts < n.beginTs →
      KeptOut sys i key ts m reads
  | read : (sys.cell i key).chain.newest? = some m →
      (∀ ts' reader, reads ts' reader → (sys.cell i key).chain.Guarded m.serial ts' reader) →
      (∀ u ∈ openOn sys.txns i, (u.pending? key).isSome →
        ∀ ts' reader, reads ts' reader → ts' < u.readTs ∨ ts' = u.readTs ∧ u.id = reader) →
      KeptOut sys i key ts m reads

/-- Somebody who got past these reads commits a write of the key at `ts` or before. -/
structure ClearedBy (sys : System V) (a : Action V) (i : Nat) (key : Key) (ts : Timestamp)
    (m : Mark V) (reads : Timestamp → TxnId → Prop) (x : Txn V) (ts' : Timestamp) : Prop where
  commits : ∃ name p, a = .commit name ts' ∧ sys.Commits name ts' i x key p
  early : ts' ≤ ts
  newest : (sys.cell i key).chain.newest? = some m
  past : ∀ high reader, reads high reader → high < x.readTs ∨ high = x.readTs ∧ x.id = reader

variable {a : Action V} {ts : Timestamp} {m : Mark V} {reads : Timestamp → TxnId → Prop}

theorem KeptOut.act (h : sys.Reachable) (hkept : sys.KeptOut i key ts m reads) (a : Action V) :
    (sys.act a).1.KeptOut i key ts m reads ∨ ∃ x ts', sys.ClearedBy a i key ts m reads x ts' := by
  have hsteps := (h.sound.act a).steps i key
  cases hkept with
  | begun hnewest hlt =>
    obtain ⟨n, hn, hle⟩ := (h.cell_sound i key).exists_newest? hsteps hnewest
    exact Or.inl (.begun hn (hlt.trans_le hle))
  | read hnewest hguarded hpast =>
    rcases h.keepsNewest_act a i key with hsame | ⟨name, ts', x, p, rfl, hc⟩
    · refine Or.inl (.read (hsame.trans hnewest) ?_ ?_)
      · exact fun high reader hread => Cell.steps_guarded hsteps (hguarded high reader hread)
      · intro u hu hp high reader hread
        obtain ⟨name, hfind⟩ := (h.sound.act a).sound.exists_name hu
        rcases pending_act h.sound hfind hp with ⟨r, hr, hid, hts, hpr⟩ |
          ⟨value, r, -, hw, hid, hts⟩
        · rw [← hid, ← hts]
          exact hpast r (h.sound.mem_openOn hr) hpr high reader hread
        · rw [← hid, ← hts]
          exact (hw.admitted h m hnewest).2 high reader (hguarded high reader hread)
    · have hx : x ∈ openOn sys.txns i := h.sound.mem_openOn hc.find
      by_cases hts : ts' ≤ ts
      · exact Or.inr ⟨x, ts', ⟨name, p, rfl, hc⟩, hts, hnewest,
          hpast x hx (by simp [hc.pending])⟩
      · exact Or.inl (.begun (hc.after h).1 (not_le.1 hts))

/-- Whoever is kept out stays so, but for such a commit. -/
theorem KeptOut.exec (h : sys.Reachable) (hkept : sys.KeptOut i key ts m reads)
    (actions : List (Action V)) :
    (sys.exec actions).KeptOut i key ts m reads ∨
      ∃ done a rest x ts', actions = done ++ a :: rest ∧
        (sys.exec done).ClearedBy a i key ts m reads x ts' := by
  induction actions generalizing sys with
  | nil => exact Or.inl hkept
  | cons a actions ih =>
    rcases hkept.act h a with hnext | ⟨x, ts', hcleared⟩
    · rcases ih (h.act a) hnext with hlast | ⟨done, b, rest, x, ts', rfl, hcleared⟩
      · exact Or.inl hlast
      · exact Or.inr ⟨a :: done, b, rest, x, ts', rfl, hcleared⟩
    · exact Or.inr ⟨[], a, actions, x, ts', rfl, hcleared⟩

/-- Nobody writes a key of which the newest version begins after they read. -/
theorem Reachable.refused_of_begun (h : sys.Reachable) (hnewest : (sys.cell i key).chain.newest? = some m)
    (hlt : t.readTs < m.beginTs) (hfind : sys.txns.find name = some ⟨i, t⟩) (value : V) (n : Nat) :
    (sys.act (.set name key value)).2 ≠ .wrote (.ok ()) n := by
  intro hok
  cases hp : t.pending? key with
  | some p =>
    obtain ⟨hopen, -⟩ := openOn_of_find h.sound.names hfind
    obtain ⟨draft, hist, hholds⟩ := h.holds_cons key hopen
    exact absurd (hholds.newest?_begun hp m hnewest) (not_le.2 hlt)
  | none =>
    exact absurd (FirstWrites.admitted h ⟨hfind, hp, n, hok⟩ m hnewest).1 (not_le.2 hlt)

/-- Nobody who is kept out writes the key, unless they get past all the reads. -/
theorem KeptOut.refused (h : sys.Reachable) (hkept : sys.KeptOut i key t.readTs m reads)
    {high : Timestamp} {reader : TxnId} (hread : reads high reader)
    (hstuck : ¬ (high < t.readTs ∨ high = t.readTs ∧ t.id = reader))
    (hfind : sys.txns.find name = some ⟨i, t⟩) (value : V) (n : Nat) :
    (sys.act (.set name key value)).2 ≠ .wrote (.ok ()) n := by
  cases hkept with
  | begun hnewest hlt => exact h.refused_of_begun hnewest hlt hfind value n
  | read hnewest hguarded hpast =>
    intro hok
    cases hp : t.pending? key with
    | some p =>
      exact hstuck (hpast t (h.sound.mem_openOn hfind) (by simp [hp]) high reader hread)
    | none =>
      have hadmitted := FirstWrites.admitted h ⟨hfind, hp, n, hok⟩ m hnewest
      exact hstuck (hadmitted.2 high reader (hguarded high reader hread))

/-! ### Retries -/

variable {run mid : List (Action V)} {set : Action V} {x : Txn V} {v : Version V}

/-- What clears a conflict of `t` over the version `v`: the transaction `x`, which reads at the same
    timestamp, was the only one in its way by having read the version, and is committed at this very
    timestamp with a write of the key. -/
structure Cleared (sys : System V) (run : List (Action V)) (set : Action V) (mid : List (Action V))
    (i : Nat) (key : Key) (t x : Txn V) (v : Version V) : Prop where
  head : ((sys.exec run).cell i key).chain.versions.head? = some v
  begun : v.beginTs ≤ t.readTs
  id_ne : x.id ≠ t.id
  readTs_eq : x.readTs = t.readTs
  read : ∃ u, sys.Recorded run i key v.serial u ∧ u.id = x.id ∧ u.readTs = t.readTs
  alone : ∀ u, sys.Recorded run i key v.serial u →
    u.readTs < t.readTs ∨ u.readTs = t.readTs ∧ (u.id = t.id ∨ u.id = x.id)
  commits : ∃ done name rest p, mid = done ++ .commit name t.readTs :: rest ∧
    (sys.exec (run ++ set :: done)).Commits name t.readTs i x key p

/-- After a conflict over a version that does not begin too late, a transaction that somebody's read
    keeps out can write only after that read has been cleared. -/
theorem cleared_of_conflict (h : sys.Reachable)
    (hhead : ((sys.exec run).cell i key).chain.versions.head? = some v)
    (hnewest : ((sys.exec run).cell i key).chain.newest? = some v.mark)
    (hpending : ∀ u ∈ openOn (sys.exec run).txns i, u.pending? key = none)
    (hread : sys.Recorded run i key v.serial u)
    (hstuck : ¬ (u.readTs < t.readTs ∨ u.readTs = t.readTs ∧ u.id = t.id))
    (hset : ∀ name ts, set ≠ .commit name ts)
    (hfind : (sys.exec (run ++ set :: mid)).txns.find name = some ⟨i, w⟩) (hid : w.id = t.id)
    (hts : w.readTs = t.readTs) {value : V} {n : Nat}
    (hok : ((sys.exec (run ++ set :: mid)).act (.set name key value)).2 = .wrote (.ok ()) n) :
    ∃ x, sys.Cleared run set mid i key t x v := by
  have hkept : (sys.exec run).KeptOut i key t.readTs v.mark fun ts reader =>
      ∃ u, sys.Recorded run i key v.serial u ∧ u.readTs = ts ∧ u.id = reader := by
    refine .read hnewest ?_ ?_
    · rintro ts reader ⟨u, hu, rfl, rfl⟩
      exact hu.guarded h
    · intro u hu hp
      rw [hpending u hu] at hp
      cases hp
  rw [exec_append] at hfind hok
  rcases hkept.exec (h.exec run) (set :: mid) with hlast | ⟨done, a, rest, x, ts, heq, hcleared⟩
  · rw [← hts] at hlast
    have hstuck' : ¬ (u.readTs < w.readTs ∨ u.readTs = w.readTs ∧ w.id = u.id) := by
      rw [hts, hid, eq_comm (a := t.id)]
      exact hstuck
    exact absurd hok (hlast.refused ((h.exec run).exec _) ⟨u, hread, rfl, rfl⟩ hstuck' hfind value n)
  · obtain ⟨name', p, rfl, hc⟩ := hcleared.commits
    obtain ⟨-, hbegin, hle⟩ := hc.supersedes ((h.exec run).exec done)
    have hpast : ∀ u, sys.Recorded run i key v.serial u →
        u.readTs < x.readTs ∨ u.readTs = x.readTs ∧ x.id = u.id := fun u hu =>
      hcleared.past _ _ ⟨u, hu, rfl, rfl⟩
    have hearly := hcleared.early
    have hlow : t.readTs ≤ u.readTs := not_lt.1 fun hlt => hstuck (Or.inl hlt)
    -- the read that keeps `t` out is at its timestamp and by the transaction that commits
    obtain ⟨hux, hxu⟩ := (hpast u hread).resolve_left
      (not_lt.2 (hle.trans (hearly.trans hlow)))
    have hxt : x.readTs = t.readTs := le_antisymm (hle.trans hearly) (hlow.trans hux.le)
    have hcommit : ts = t.readTs := le_antisymm hearly (hxt.ge.trans hle)
    subst hcommit
    cases done with
    | nil => exact absurd (List.cons.inj heq).1 (hset name' _)
    | cons b done =>
      obtain ⟨rfl, rfl⟩ := List.cons.inj heq
      refine ⟨x, hhead, ?_, ?_, hxt, ⟨u, hread, hxu.symm, hux.trans hxt⟩, ?_,
        done, name', rest, p, rfl, ?_⟩
      · exact (hbegin v.mark hcleared.newest).trans hxt.le
      · intro hxid
        exact hstuck (Or.inr ⟨hux.trans hxt, hxu.symm.trans hxid⟩)
      · intro r hr
        rw [← hxt]
        exact (hpast r hr).imp_right fun hsame => ⟨hsame.1, Or.inr hsame.2.symm⟩
      · rw [exec_append]
        exact hc

/-- A retry can clear contention and, with the one exception described, nothing else. Whenever in a run
    of new stores a write was refused to a transaction and later a write of the same key by the same
    transaction takes effect, it was refused as contended; or it was refused as a conflict, and in the
    meantime the only transaction in the way was committed at the very timestamp at which both read. -/
theorem retries_succeed (configs : List Config) (shared : Bool) {name' : String} {t' : Txn V}
    {value value' : V} {e : Refusal} {n n' : Nat}
    (hfind : ((start configs shared).exec run).txns.find name = some ⟨i, t⟩)
    (hrefused : (((start configs shared).exec run).act (.set name key value)).2 =
      .wrote (.error e) n)
    (hfind' : ((start configs shared).exec (run ++ .set name key value :: mid)).txns.find name' =
      some ⟨i, t'⟩)
    (hid : t'.id = t.id)
    (hok : (((start configs shared).exec (run ++ .set name key value :: mid)).act
      (.set name' key value')).2 = .wrote (.ok ()) n') :
    e = .contended ∨
      e = .conflict ∧ ∃ x v, (start configs shared).Cleared run (.set name key value) mid i key t x v := by
  have hnew : (start configs shared : System V).Reachable := ⟨configs, shared, [], rfl⟩
  have hreachable := hnew.exec run
  have hreachable' := hnew.exec (run ++ .set name key value :: mid)
  obtain ⟨s, hs⟩ := hreachable.sound.exists_store hfind
  obtain ⟨hopen, -⟩ := openOn_of_find hreachable.sound.names hfind
  have hsound := hreachable.cell_sound i key
  have hsteps := (hreachable.sound.exec (.set name key value :: mid)).steps i key
  rw [← exec_append] at hsteps
  have hsame := hsound.continues hsteps (hreachable.sound.mem_openOn hfind)
    (hreachable'.sound.mem_openOn hfind') hid
  have hverdict : (s.set t key value).verdict = .error e := by
    rw [(act_set hfind hs key value).1] at hrefused
    exact (Answer.wrote.inj hrefused).1
  rcases verdict_set_cases configs shared hfind hs key value with ⟨hupdate, -⟩ |
    ⟨-, -, hcontended⟩ | ⟨-, -, -, hwrote⟩ | ⟨-, hfree, hconflict, herror⟩
  · -- whoever was opened for reading only stays so
    obtain ⟨s', hs'⟩ := hreachable'.sound.exists_store hfind'
    have hreadOnly : (s'.set t' key value').verdict = .error .readOnly := by
      unfold Store.set
      rw [hsame.update_eq, hupdate]
      rfl
    rw [(act_set hfind' hs' key value').1, hreadOnly] at hok
    cases (Answer.wrote.inj hok).1
  · exact Or.inl (Except.error.inj (hverdict.symm.trans hcontended))
  · cases hverdict.symm.trans hwrote
  · refine Or.inr ⟨Except.error.inj (hverdict.symm.trans herror), ?_⟩
    have hcell : ((start configs shared : System V).exec run).cell i key =
        ⟨(((start configs shared).exec run).cell i key).chain,
          t ::ₘ openOn (((start configs shared : System V).exec run).txns.unbind name) i,
          ((start configs shared).exec run).nextId i⟩ := by
      rw [← hopen]
      rfl
    rw [hcell] at hsound hfree hconflict
    obtain ⟨v, hhead, -, hnewest, hpending, hlate⟩ := hsound.exists_conflict hfree hconflict
    by_cases hbegin : v.beginTs ≤ t.readTs
    · obtain ⟨u, hread, hstuck⟩ := hlate hbegin
      obtain ⟨x, hcleared⟩ := cleared_of_conflict hnew hhead hnewest (hopen ▸ hpending) hread hstuck
        (fun _ _ heq => by cases heq) hfind' hid hsame.readTs_eq hok
      exact ⟨x, v, hcleared⟩
    · -- a version that begins too late is only ever superseded by later ones
      obtain ⟨m, hm, hle⟩ := (hreachable.cell_sound i key).exists_newest? hsteps hnewest
      have hlt : t'.readTs < m.beginTs := by
        rw [hsame.readTs_eq]
        exact (not_le.1 hbegin).trans_le hle
      exact absurd hok (hreachable'.refused_of_begun hm hlt hfind' value' n')

theorem wrote_of_verdict (hfind : sys.txns.find name = some ⟨i, t⟩) (key : Key) (value : V)
    (verdict : Verdict) (n : Nat) (hverdict : (sys.stores[i]?.map fun s =>
      ((s.set t key value).verdict, (s.set t key value).txn.writes.length)) = some (verdict, n)) :
    (sys.act (.set name key value)).2 = .wrote verdict n := by
  obtain ⟨s, hs, heq⟩ := Option.map_eq_some_iff.1 hverdict
  obtain ⟨rfl, rfl⟩ := Prod.mk.inj heq
  exact (act_set hfind hs key value).1

/-- A conflict is not final: the transaction `x` reads a version where `w` reads, `w` is refused to
    supersede it, `x` supersedes it and is committed there, and then `w` supersedes the new version,
    which nobody has read. -/
theorem conflict_not_final :
    let before : List (Action Nat) := [.openTxn 0 "a" 1 true, .set "a" [7] 5, .commit "a" 1,
      .openTxn 0 "w" 5 true, .openTxn 0 "x" 5 true, .get "x" [7]]
    let after := before ++ .set "w" [7] 6 :: [.set "x" [7] 7, .commit "x" 5]
    let w : Txn Nat := ⟨2, 5, true, []⟩
    ((start [.standard] false).exec before).txns.find "w" = some ⟨0, w⟩ ∧
    (((start [.standard] false).exec before).act (.set "w" [7] 6)).2 = .wrote (.error .conflict) 0 ∧
    ((start [.standard] false).exec after).txns.find "w" = some ⟨0, w⟩ ∧
    (((start [.standard] false).exec after).act (.set "w" [7] 8)).2 = .wrote (.ok ()) 1 := by
  intro before after w
  have hfind : ((start [.standard] false).exec before).txns.find "w" = some ⟨0, w⟩ := by
    decide +kernel
  have hfind' : ((start [.standard] false).exec after).txns.find "w" = some ⟨0, w⟩ := by
    decide +kernel
  exact ⟨hfind, wrote_of_verdict hfind [7] 6 _ _ (by decide +kernel), hfind',
    wrote_of_verdict hfind' [7] 8 _ _ (by decide +kernel)⟩

/-- The conflict of `w` with a read at its timestamp is cleared by the commit of the reader. -/
theorem retries_succeed_past_reader : ∃ (x : Txn Nat) (v : Version Nat),
    (start [.standard] false).Cleared [.openTxn 0 "a" 1 true, .set "a" [7] 5, .commit "a" 1,
        .openTxn 0 "w" 5 true, .openTxn 0 "x" 5 true, .get "x" [7]]
      (.set "w" [7] 6) [.set "x" [7] 7, .commit "x" 5] 0 [7] ⟨2, 5, true, []⟩ x v := by
  have hfind : ((start [.standard] false : System Nat).exec [.openTxn 0 "a" 1 true, .set "a" [7] 5,
      .commit "a" 1, .openTxn 0 "w" 5 true, .openTxn 0 "x" 5 true, .get "x" [7]]).txns.find "w" =
      some ⟨0, ⟨2, 5, true, []⟩⟩ := by decide +kernel
  have hfind' : ((start [.standard] false : System Nat).exec ([.openTxn 0 "a" 1 true, .set "a" [7] 5,
      .commit "a" 1, .openTxn 0 "w" 5 true, .openTxn 0 "x" 5 true, .get "x" [7]] ++
      .set "w" [7] 6 :: [.set "x" [7] 7, .commit "x" 5])).txns.find "w" =
      some ⟨0, ⟨2, 5, true, []⟩⟩ := by decide +kernel
  have hrefused := wrote_of_verdict hfind [7] 6 (.error .conflict) 0 (by decide +kernel)
  have hok := wrote_of_verdict hfind' [7] 8 (.ok ()) 1 (by decide +kernel)
  rcases retries_succeed [.standard] false hfind hrefused hfind' rfl hok with hcontended | ⟨-, hcleared⟩
  · cases hcontended
  · exact hcleared

end System

end RadixStore
