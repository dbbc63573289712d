import Mathlib
import RadixStore.Proofs.Store.Admission
import RadixStore.Proofs.Store.Visibility
import RadixStore.Script.Store

/-!
# What a commit publishes

A commit makes all pending writes of a transaction current at once. From its timestamp on everybody is
shown the values that the transaction wrote last. Below it everybody is shown what was there before,
no longer refused because the transaction held it. Other keys answer as before, and nothing is left of
the transaction in the chains or in the registry.
-/

namespace RadixStore

variable {V : Type}

/-! ### What is visible in a chain -/

namespace Chain

/-- What is to be shown at `ts`, whoever holds it. -/
def settledAt (c : Chain V) (ts : Timestamp) : Except Refusal V :=
  match c.found? ts with
  | none => .error .absent
  | some m => .ok m.value

variable {c c' : Chain V} {hist : List (Version V)} {m : Mark V} {ts : Timestamp}

/-- A version that is held, or that is pending, is so by the owner of the draft. -/
theorem Shape.holder_cases {draft : Option (Draft V)} (h : c.Shape draft hist) {v : Version V}
    (hv : v ∈ c.versions) :
    v.holder = none ∧ v.committed = true ∨ ∃ d, draft = some d ∧ v.holder = some d.owner := by
  rw [h.versions_eq] at hv
  cases draft with
  | none => exact Or.inl ⟨h.history.released hv, h.history.committed hv⟩
  | some d =>
    rcases List.mem_cons.1 hv with rfl | hv
    · exact Or.inr ⟨d, rfl, rfl⟩
    · cases hist with
      | nil => cases hv
      | cons head older =>
        rcases List.mem_cons.1 hv with rfl | hv
        · exact Or.inr ⟨d, rfl, rfl⟩
        · have hold : v ∈ head :: older := List.mem_cons_of_mem _ hv
          exact Or.inl ⟨h.history.released hold, h.history.committed hold⟩

/-- Against whom nobody holds a version, they are shown what is to be shown. -/
theorem Shape.answer_settled {draft : Option (Draft V)} (h : c.Shape draft hist) {reader : TxnId}
    (howner : ∀ d ∈ draft, d.owner = reader) (hts : ts < infinity) :
    (c.look ts reader).1.answer = c.settledAt ts := by
  rcases c.look_found ts reader with ⟨hnone, hlook⟩ | ⟨newer, x, older, hversions, hfound, hlook⟩
  · rw [settledAt, hnone, hlook]
    rfl
  · have hfree : x.isHeldAgainst reader = false := by
      have hx : x ∈ c.versions := by simp [hversions]
      unfold Version.isHeldAgainst
      rcases h.holder_cases hx with ⟨hreleased, -⟩ | ⟨d, hd, hheld⟩
      · rw [hreleased]
      · rw [hheld]
        exact decide_eq_false fun hne => hne (howner d hd)
    have hcurrent := h.look_ne_superseded hts reader
    rw [hlook] at hcurrent
    have hsight : sightOf x ts reader = .value x.value := by
      unfold sightOf at hcurrent ⊢
      rw [hfree] at hcurrent ⊢
      by_cases hend : x.endTs ≤ ts
      · simp [hend] at hcurrent
      · simp [hend]
    rw [settledAt, hfound, hlook, hsight]
    rfl

theorem settledAt_congr (h : c'.found? ts = c.found? ts) : c'.settledAt ts = c.settledAt ts := by
  rw [settledAt, settledAt, h]

theorem settledAt_of_newest (hnewest : c.newest? = some m) (hle : m.beginTs ≤ ts) :
    c.settledAt ts = .ok m.value := by
  have hfound : c.found? ts = c.newest? := by
    refine found?_of_newest ?_ (by rw [hnewest]; rfl)
    rw [hnewest]
    intro n hn
    exact Option.some_inj.1 hn ▸ hle
  rw [settledAt, hfound, hnewest]

/-- Behind a version that begins later everything is as it was. -/
theorem found?_of_later (hmarks : c'.marks = m :: c.marks) (hlt : ts < m.beginTs) :
    c'.found? ts = c.found? ts := by
  rw [found?, found?, hmarks, List.find?_cons_of_neg (by simpa using hlt)]

end Chain

/-! ### What a commit does to a store -/

namespace Store

variable {s : Store V} {t u : Txn V} {key : Key} {p : Pending V} {ts safepoint : Timestamp}

theorem chain_trimChain (hs : s.index.Valid) (key : Key) (safepoint : Timestamp) (k : Key) :
    (s.trimChain key safepoint).1.chain k =
      if k = key ∧ s.config.gcMinChainLen ≤ (s.chain k).length then (s.chain k).pruned safepoint
      else s.chain k := by
  unfold trimChain
  cases hc : s.chain? key with
  | none =>
    have hempty : s.chain key = .empty := by simp [chain, hc]
    dsimp only
    split
    · rename_i hk
      rw [hk.1, hempty]
      rfl
    · rfl
  | some c =>
    have hchain := chain_eq_of_chain? hc
    dsimp only
    by_cases hlen : c.length < s.config.gcMinChainLen
    · rw [if_pos hlen, if_neg]
      rintro ⟨rfl, hle⟩
      rw [hchain] at hle
      exact absurd hlen (not_lt.2 hle)
    · rw [if_neg hlen]
      show (s.updateChain key fun _ => (c.trim safepoint).1).chain k = _
      rw [chain_updateChain hs key (Or.inr (by simp [hc]))]
      by_cases hk : k = key
      · subst hk
        rw [Function.update_self, if_pos ⟨rfl, hchain ▸ not_lt.1 hlen⟩, hchain]
        rfl
      · rw [Function.update_of_ne hk, if_neg fun hboth => hk hboth.1]

/-- Trimming cuts the chains that are named and long enough, and no others. -/
theorem chain_trimmed (hs : s.index.Valid) (safepoint : Timestamp) (keys : List Key) (k : Key) :
    (keys.foldl (fun s key => (s.trimChain key safepoint).1) s).chain k =
      if k ∈ keys ∧ s.config.gcMinChainLen ≤ (s.chain k).length then (s.chain k).pruned safepoint
      else s.chain k := by
  induction keys generalizing s with
  | nil => simp
  | cons key keys ih =>
    obtain ⟨hrechained, -⟩ := trimChain_spec hs key safepoint
    rw [List.foldl_cons, ih (hrechained.valid hs), chain_trimChain hs, hrechained.config_eq]
    by_cases hlen : s.config.gcMinChainLen ≤ (s.chain k).length
    · by_cases hk : k = key
      · simp only [hk, true_and, List.mem_cons, true_or]
        subst hk
        rw [if_pos hlen]
        split
        · exact Chain.pruned_pruned le_rfl _
        · rfl
      · simp only [hk, false_and, if_false, List.mem_cons, false_or]
    · simp only [hlen, and_false, if_false]

theorem mem_writes_iff : key ∈ t.writes.map Prod.fst ↔ (t.pending? key).isSome := by
  unfold Txn.pending?
  rw [Option.isSome_map, List.find?_isSome, List.mem_map]
  simp

/-- The chains after a commit, and the safepoint that it trims against. -/
theorem commit_spec (hs : s.index.Valid) (hw : (t.writes.map Prod.fst).Nodup)
    (hts : t.readTs ≤ ts) :
    (s.commit t ts).verdict = .ok () ∧
      (s.commit t ts).store.active = s.active.leave t.readTs ∧
      (s.commit t ts).store.watermark = s.watermark ∧ (s.commit t ts).store.config = s.config ∧
      ∀ k, (s.commit t ts).store.chain k =
        match t.pending? k with
        | none => s.chain k
        | some p =>
          if s.config.inlineGc = true ∧ s.config.gcMinChainLen ≤ (s.chain k).length then
            ((s.chain k).commit p.installed ts).pruned (s.commit t ts).store.safepoint
          else (s.chain k).commit p.installed ts := by
  obtain ⟨hrechained, hchain⟩ := publish_spec hs hw ts
  have hvalid : ((s.publish ts t.writes).closeTxn t).index.Valid := hrechained.valid hs
  have hclosed : ∀ k, ((s.publish ts t.writes).closeTxn t).chain k =
      match t.pending? k with
      | none => s.chain k
      | some p => (s.chain k).commit p.installed ts := hchain
  have hactive : ((s.publish ts t.writes).closeTxn t).active = s.active.leave t.readTs :=
    congrArg (fun r : Registry => r.leave t.readTs) hrechained.active_eq
  have hconfig : ((s.publish ts t.writes).closeTxn t).config = s.config := hrechained.config_eq
  rw [commit_of_le hts]
  dsimp only
  rw [hconfig]
  cases hinline : s.config.inlineGc with
  | false =>
    refine ⟨rfl, hactive, hrechained.watermark_eq, hconfig, ?_⟩
    intro k
    refine (hclosed k).trans ?_
    cases t.pending? k with
    | none => rfl
    | some p => simp
  | true =>
    obtain ⟨htrim, -⟩ := foldl_trimChain_spec hvalid
      ((s.publish ts t.writes).closeTxn t).safepoint (t.writes.map Prod.fst)
    simp only [if_true, true_and]
    rw [trimChains_fst]
    refine ⟨htrim.active_eq.trans hactive, htrim.watermark_eq.trans hrechained.watermark_eq,
      htrim.config_eq.trans hconfig, ?_⟩
    intro k
    rw [chain_trimmed hvalid, htrim.safepoint_eq, hconfig, hclosed k]
    cases hp : t.pending? k with
    | none =>
      refine if_neg ?_
      rintro ⟨hmem, -⟩
      rw [mem_writes_iff, hp] at hmem
      cases hmem
    | some p =>
      have hlength : ((s.chain k).commit p.installed ts).length = (s.chain k).length :=
        List.length_map ..
      simp only [mem_writes_iff, hp, Option.isSome_some, true_and, hlength]

/-! ### What everybody is shown afterwards -/

/-- The store `s'` is `s` with the pending writes of `t` committed at `ts`, and nothing besides. -/
structure Publishes (s : Store V) (t : Txn V) (ts : Timestamp) (s' : Store V) : Prop where
  /-- From the commit on everybody is shown what `t` wrote. -/
  current : ∀ key p u, t.pending? key = some p → u.pending? key = none → u.readTs < infinity →
    ts ≤ u.readTs → (s'.get u key).1 = .ok p.value
  /-- Before it everybody is shown what was committed then, unless it has been trimmed, -/
  earlier : ∀ key p u, t.pending? key = some p → u.pending? key = none → u.readTs < infinity →
    u.readTs < ts →
    (s.config.inlineGc = true → s.config.gcMinChainLen ≤ (s.chain key).length →
      s'.safepoint ≤ u.readTs) →
    (s'.get u key).1 = (s.chain key).settledAt u.readTs
  /-- and that is what `t` itself, whose lock does not count against it, would have found there. -/
  unheld : ∀ key p T, t.pending? key = some p → T < infinity →
    ((s.chain key).look T t.id).1.answer = (s.chain key).settledAt T
  /-- Other keys answer as before. -/
  elsewhere : ∀ key u, t.pending? key = none → (s'.get u key).1 = (s.get u key).1
  /-- The keys and the nodes of the index stay what they are. -/
  places : s'.places = s.places
  /-- The registry has one entry less at the timestamp of `t`. -/
  registry : s.active.members = t.readTs ::ₘ s'.active.members
  watermark : s'.watermark = s.watermark
  config : s'.config = s.config

variable {txns : Multiset (Txn V)}

theorem publishes_commit (h : s.Sound (t ::ₘ txns))
    (hholds : ∀ key, ∃ draft hist, (s.cell (t ::ₘ txns) 0 key).Holds key draft hist)
    (hts : t.readTs ≤ ts) : s.Publishes t ts (s.commit t ts).store := by
  have hw := h.writes t (Multiset.mem_cons_self t _)
  obtain ⟨-, hactive, hwatermark, hconfig, hchain⟩ := commit_spec h.valid hw hts
  obtain ⟨hvalid, hplaces⟩ := keeps_commit s t ts h.valid
  -- after the commit the chain has no draft, whether or not it is trimmed
  have hwritten : ∀ key p, t.pending? key = some p → ∃ hist,
      ((s.commit t ts).store.chain key).Shape none hist ∧
      ((s.commit t ts).store.chain key).newest? = some ⟨p.installed.node, ts, p.value⟩ ∧
      ∀ T < ts, (s.config.inlineGc = true → s.config.gcMinChainLen ≤ (s.chain key).length →
          (s.commit t ts).store.safepoint ≤ T) →
        ((s.commit t ts).store.chain key).found? T = (s.chain key).found? T := by
    intro key p hp
    obtain ⟨draft, hist, hkey⟩ := hholds key
    have hmarks := hkey.marks_commit hp hts
    obtain ⟨serial, -, hnew⟩ := hkey.commit hp hts
    have hnewest : ((s.chain key).commit p.installed ts).newest? =
        some ⟨p.installed.node, ts, p.value⟩ := by
      rw [Chain.newest?, hmarks, List.head?_cons]
    have hkept := hchain key
    rw [hp] at hkept
    dsimp only at hkept
    rw [hkept]
    split
    · rename_i htrimmed
      refine ⟨_, hnew.shape.pruned, hnew.shape.newest?_pruned.trans hnewest, ?_⟩
      intro T hT hsafe
      exact (hnew.shape.found?_pruned (hsafe htrimmed.1 htrimmed.2)).trans
        (Chain.found?_of_later hmarks hT)
    · exact ⟨_, hnew.shape, hnewest, fun T hT _ => Chain.found?_of_later hmarks hT⟩
  refine ⟨?_, ?_, ?_, ?_, hplaces, ?_, hwatermark, hconfig⟩
  · intro key p u hp hu hinfinity hle
    obtain ⟨hist, hshape, hnewest, -⟩ := hwritten key p hp
    rw [(get_of_free hvalid hu).1, hshape.answer_settled (fun _ hd => by cases hd) hinfinity,
      Chain.settledAt_of_newest hnewest hle]
  · intro key p u hp hu hinfinity hlt hsafe
    obtain ⟨hist, hshape, -, hfound⟩ := hwritten key p hp
    rw [(get_of_free hvalid hu).1, hshape.answer_settled (fun _ hd => by cases hd) hinfinity,
      Chain.settledAt_congr (hfound _ hlt hsafe)]
  · intro key p T hp hinfinity
    obtain ⟨draft, hist, hkey⟩ := hholds key
    obtain ⟨serial, rfl, -⟩ := hkey.drafted (Multiset.mem_cons_self t _) hp
    refine hkey.shape.answer_settled ?_ hinfinity
    intro d hd
    obtain rfl := Option.some_inj.1 hd
    rfl
  · intro key u hp
    have hsame := hchain key
    rw [hp] at hsame
    rw [get_fst hvalid, get_fst h.valid, tells, tells, hsame]
  · have hmembers := h.members_eq
    rw [Multiset.map_cons] at hmembers
    rw [hactive]
    exact h.ordered.members_leave (hmembers ▸ Multiset.mem_cons_self t.readTs _)

end Store

/-! ### Commits in a run -/

namespace System

variable {sys : System V} {name : String} {i : Nat} {t : Txn V} {s : Store V} {key : Key}
  {p : Pending V} {ts : Timestamp}

/-- In the run `value` is the last one that the transaction `id` has set `key` to with effect, under
    the name `name`. -/
def LastSet (sys : System V) (run : List (Action V)) (name : String) (i : Nat) (id : TxnId)
    (key : Key) (value : V) : Prop :=
  ∃ before mid u n, run = before ++ .set name key value :: mid ∧
    (sys.exec before).txns.find name = some ⟨i, u⟩ ∧ u.id = id ∧
    ((sys.exec before).act (.set name key value)).2 = .wrote (.ok ()) n ∧
    ∀ done later rest m, mid = done ++ .set name key later :: rest →
      ((sys.exec (before ++ .set name key value :: done)).act (.set name key later)).2 ≠
        .wrote (.ok ()) m

/-- By a write that takes effect the value is pending. -/
theorem Sound.pending_of_wrote (h : sys.Sound) {value : V} {n : Nat}
    (hok : (sys.act (.set name key value)).2 = .wrote (.ok ()) n)
    (hfind : (sys.act (.set name key value)).1.txns.find name = some ⟨i, t⟩)
    (hp : t.pending? key = some p) :
    p.value = value ∧ ∃ u, sys.txns.find name = some ⟨i, u⟩ ∧ u.id = t.id := by
  cases hbefore : sys.txns.find name with
  | none => simp [System.act, System.onTxn, hbefore] at hok
  | some o =>
    obtain ⟨j, u⟩ := o
    obtain ⟨s, hs⟩ := h.exists_store hbefore
    obtain ⟨hanswer, hreplaces⟩ := act_set hbefore hs key value
    rw [hreplaces.txn] at hfind
    obtain ⟨rfl, rfl⟩ := OpenTxn.mk.inj (Option.some_inj.1 hfind)
    rw [hanswer] at hok
    have hverdict := (Answer.wrote.inj hok).1
    refine ⟨?_, u, rfl, (Store.txn_set s u key value).1.symm⟩
    obtain ⟨-, ⟨e, herror, -⟩ | ⟨c, j, -, -, -, htxn, -⟩ | ⟨q, c, j, -, -, -, htxn, -⟩⟩ :=
      Store.set_cases (h.stores j s hs).valid u key value
    · rw [hverdict] at herror
      cases herror
    · rw [htxn, Txn.pending?_stage_self] at hp
      rw [← Option.some_inj.1 hp]
    · rw [htxn, Txn.pending?_stage_self] at hp
      rw [← Option.some_inj.1 hp]

/-- What is pending after an action, and is not set by it, was pending before. -/
theorem Sound.pending_of_act (h : sys.Sound) {a : Action V}
    (hfind : (sys.act a).1.txns.find name = some ⟨i, t⟩) (hp : t.pending? key = some p)
    (hother : ∀ value n, a = .set name key value → (sys.act a).2 ≠ .wrote (.ok ()) n) :
    ∃ u, sys.txns.find name = some ⟨i, u⟩ ∧ u.id = t.id ∧ u.pending? key = some p := by
  rcases find_act hfind with hsame | hnew | ⟨k, value, u, s, rfl, hu, hs, rfl⟩
  · exact ⟨t, hsame, rfl, hp⟩
  · simp [Txn.pending?, hnew] at hp
  · have hid := (Store.txn_set s u k value).1
    refine ⟨u, hu, hid.symm, ?_⟩
    have heffect : ∀ {q}, (s.set u k value).txn = u.stage k q →
        (s.set u k value).verdict = .ok () → u.pending? key = some p := by
      intro q htxn hok
      by_cases hk : key = k
      · subst hk
        have hanswer := (act_set hu hs key value).1
        rw [hok] at hanswer
        exact absurd hanswer (hother value _ rfl)
      · rw [htxn, Txn.pending?_stage_of_ne u _ hk] at hp
        exact hp
    obtain ⟨-, ⟨e, -, htxn, -⟩ | ⟨c, j, hok, -, -, htxn, -⟩ | ⟨q, c, j, hok, -, -, htxn, -⟩⟩ :=
      Store.set_cases (h.stores i s hs).valid u k value
    · rwa [htxn] at hp
    · exact heffect htxn hok
    · exact heffect htxn hok

/-- What a transaction has pending is what it has set the key to last. -/
theorem lastSet_of_pending (configs : List Config) (shared : Bool) {run : List (Action V)}
    (hfind : ((start configs shared : System V).exec run).txns.find name = some ⟨i, t⟩)
    (hp : t.pending? key = some p) :
    (start configs shared : System V).LastSet run name i t.id key p.value := by
  induction run using List.reverseRecOn generalizing t with
  | nil => simp [start, exec, Bindings.find] at hfind
  | append_singleton run a ih =>
    have hsound := ((sound_start configs shared).exec run).sound
    rw [exec_append] at hfind
    by_cases heffect : ∃ value n, a = .set name key value ∧
        (((start configs shared : System V).exec run).act a).2 = .wrote (.ok ()) n
    · obtain ⟨value, n, rfl, hok⟩ := heffect
      obtain ⟨rfl, u, hu, hid⟩ := hsound.pending_of_wrote hok hfind hp
      refine ⟨run, [], u, n, rfl, hu, hid, hok, ?_⟩
      intro done later rest m heq
      simp at heq
    · have hother : ∀ value n, a = .set name key value →
          (((start configs shared : System V).exec run).act a).2 ≠ .wrote (.ok ()) n :=
        fun value n ha hok => heffect ⟨value, n, ha, hok⟩
      obtain ⟨u, hu, hid, hpu⟩ := hsound.pending_of_act hfind hp hother
      obtain ⟨before, mid, r, n, rfl, hr, hrid, hok, hlast⟩ := ih hu hpu
      refine ⟨before, mid ++ [a], r, n, by simp, hr, hrid.trans hid, hok, ?_⟩
      intro done later rest m heq
      rcases List.eq_nil_or_concat rest with rfl | ⟨rest, b, rfl⟩
      · obtain ⟨rfl, ha⟩ := List.append_inj' heq rfl
        exact (List.cons.inj ha).1 ▸ hother later m (List.cons.inj ha).1
      · refine hlast done later rest m ?_
        have heq' : mid ++ [a] = (done ++ .set name key later :: rest) ++ [b] := by
          rw [heq]
          simp
        exact (List.append_inj' heq' rfl).1

/-- Whoever ends is the only one open under the identity. -/
theorem Sound.id_ne_of_unbind (h : sys.Sound) (hfind : sys.txns.find name = some ⟨i, t⟩)
    (hs : sys.stores[i]? = some s) {u : Txn V} (hu : u ∈ openOn (sys.txns.unbind name) i) :
    u.id ≠ t.id := by
  obtain ⟨hopen, -⟩ := openOn_of_find h.names hfind
  have hids := (h.stores i s hs).ids
  rw [hopen, Multiset.map_cons, Multiset.nodup_cons] at hids
  intro hid
  exact hids.1 (hid ▸ Multiset.mem_map_of_mem Txn.id hu)

/-- A version that is held, or that is pending, is so by an open transaction. -/
theorem Reachable.holder_cases (h : sys.Reachable) (hs : sys.stores[i]? = some s) (key : Key)
    {v : Version V} (hv : v ∈ (s.chain key).versions) :
    v.holder = none ∧ v.committed = true ∨ ∃ u ∈ openOn sys.txns i, v.holder = some u.id := by
  obtain ⟨draft, hist, hholds⟩ := h.holds hs key
  rcases hholds.shape.holder_cases hv with hfree | ⟨d, rfl, hheld⟩
  · exact Or.inl hfree
  · obtain ⟨u, hu, howner, -⟩ := hholds.exists_owner
    exact Or.inr ⟨u, hu, hheld.trans (congrArg some howner.symm)⟩

theorem act_commit (hfind : sys.txns.find name = some ⟨i, t⟩) (hs : sys.stores[i]? = some s)
    (ts : Timestamp) :
    sys.act (.commit name ts) =
      ({ sys.setStore i (s.commit t ts).store with
          txns := sys.txns.unbind name
          reclaimed := sys.reclaimed + (s.commit t ts).reclaimed },
        .verdict (s.commit t ts).verdict) := by
  simp [act, onTxn, onStore, hfind, hs]

/-- A commit with a callback is that commit, and the callback is told its outcome once, when it is
    done. -/
theorem commitWith_eq (hfind : sys.txns.find name = some ⟨i, t⟩) (hs : sys.stores[i]? = some s)
    (ts : Timestamp) {α : Type} (callback : Verdict → Store V → α) :
    sys.commitWith name ts callback = ((sys.act (.commit name ts)).1,
      some ((s.commit t ts).verdict, callback (s.commit t ts).verdict (s.commit t ts).store)) := by
  rw [act_commit hfind hs]
  simp [commitWith, hfind, hs, Store.commitWith_eq]

theorem step_commitWith (hfind : sys.txns.find name = some ⟨i, t⟩) (hs : sys.stores[i]? = some s)
    (ts : Timestamp) : StoreScript.step sys (.commitWith name ts) =
      ((sys.act (.commit name ts)).1,
        .notified (s.commit t ts).verdict
          [((s.commit t ts).verdict, (s.commit t ts).store.active.count)]
          (StoreScript.figures (sys.act (.commit name ts)).1 i)) := by
  show StoreScript.doCommitWith sys name ts = _
  unfold StoreScript.doCommitWith
  rw [hfind, commitWith_eq hfind hs]

/-- A commit publishes all pending writes at once and nothing else. In every run of new stores an open
    transaction can be committed at or above the timestamp at which it reads. From the commit on
    everybody is shown the values that it set last; below it everybody is shown what was committed
    before; other keys answer as before. No version is held by it any more or pending for it, and
    neither the other transactions nor the other stores change. A callback is told the outcome once,
    and finds the store as the commit leaves it, where the transaction is no longer registered. -/
theorem commit_publishes (configs : List Config) (shared : Bool) {run : List (Action V)}
    (hfind : ((start configs shared : System V).exec run).txns.find name = some ⟨i, t⟩)
    (hts : t.readTs ≤ ts) :
    let sys := (start configs shared).exec run
    let after := (sys.act (.commit name ts)).1
    ∃ s s', sys.stores[i]? = some s ∧ after.stores[i]? = some s' ∧
      (sys.act (.commit name ts)).2 = .verdict (.ok ()) ∧
      s.Publishes t ts s' ∧
      (∀ key p, t.pending? key = some p →
        (start configs shared).LastSet run name i t.id key p.value) ∧
      (∀ key, ∀ v ∈ (s'.chain key).versions, v.holder ≠ some t.id ∧
        (v.committed = false → ∃ u ∈ openOn after.txns i, v.holder = some u.id)) ∧
      (∀ u ∈ openOn after.txns i, u.id ≠ t.id) ∧
      openOn sys.txns i = t ::ₘ openOn after.txns i ∧
      s'.active.members = (openOn after.txns i).map Txn.readTs ∧
      after.txns.find name = none ∧
      (∀ other, other ≠ name → after.txns.find other = sys.txns.find other) ∧
      (∀ j, j ≠ i → after.stores[j]? = sys.stores[j]?) ∧
      (∀ (α : Type) (callback : Verdict → Store V → α),
        sys.commitWith name ts callback = (after, some (.ok (), callback (.ok ()) s'))) ∧
      StoreScript.step sys (.commitWith name ts) = (after,
        .notified (.ok ()) [(.ok (), (openOn after.txns i).card)] (StoreScript.figures after i)) := by
  intro sys after
  have hreachable : sys.Reachable := ⟨configs, shared, run, rfl⟩
  have hafter : after.Reachable := hreachable.act _
  obtain ⟨s, hs⟩ := hreachable.sound.exists_store hfind
  obtain ⟨hopen, -⟩ := openOn_of_find hreachable.sound.names hfind
  have hlt : i < sys.stores.length := (List.getElem?_eq_some_iff.1 hs).1
  have hact := act_commit hfind hs ts
  have hsound : s.Sound (t ::ₘ openOn (sys.txns.unbind name) i) :=
    hopen ▸ hreachable.sound.stores i s hs
  have hcommit := Store.commit_spec hsound.valid
    (hsound.writes t (Multiset.mem_cons_self t _)) hts
  have htxns : after.txns = sys.txns.unbind name := congrArg (fun r => r.1.txns) hact
  have hstores : after.stores = sys.stores.set i (s.commit t ts).store :=
    congrArg (fun r => r.1.stores) hact
  have hs' : after.stores[i]? = some (s.commit t ts).store := by
    rw [hstores]
    exact List.getElem?_set_self hlt
  have hanswer : (sys.act (.commit name ts)).2 = .verdict (.ok ()) := by
    rw [hact, hcommit.1]
  have hothers : ∀ u ∈ openOn after.txns i, u.id ≠ t.id := fun u hu =>
    hreachable.sound.id_ne_of_unbind hfind hs (htxns ▸ hu)
  have hmembers := (hafter.sound.stores i _ hs').members_eq
  refine ⟨s, (s.commit t ts).store, hs, hs', hanswer, ?_, ?_, ?_, hothers, htxns ▸ hopen, hmembers,
    ?_, ?_, ?_, ?_, ?_⟩
  · refine Store.publishes_commit hsound (fun key => ?_) hts
    obtain ⟨draft, hist, hholds⟩ := hreachable.holds_find hfind hs key
    exact ⟨draft, hist, hholds.shape, hholds.backed⟩
  · exact fun key p hp => lastSet_of_pending configs shared hfind hp
  · intro key v hv
    rcases hafter.holder_cases hs' key hv with ⟨hreleased, hcommitted⟩ | ⟨u, hu, hheld⟩
    · rw [hreleased, hcommitted]
      exact ⟨nofun, nofun⟩
    · rw [hheld]
      exact ⟨fun h => hothers u hu (Option.some_inj.1 h), fun _ => ⟨u, hu, rfl⟩⟩
  · rw [htxns]
    exact Bindings.find_unbind_self _ _
  · intro other hother
    rw [htxns]
    exact Bindings.find_unbind_of_ne _ hother
  · intro j hj
    rw [hstores, List.getElem?_set_ne hj.symm]
  · intro α callback
    rw [commitWith_eq hfind hs, hcommit.1]
  · rw [step_commitWith hfind hs, hcommit.1, Registry.count_eq_card, hmembers, Multiset.card_map]

/-- A transaction that has set one key twice and another once is committed, and the chains are trimmed
    on the way. -/
theorem commit_publishes_two_keys :
    let run : List (Action Nat) := [.openTxn 0 "a" 1 true, .set "a" [7] 5, .commit "a" 2,
      .advanceWatermark 0 3, .openTxn 0 "w" 3 true, .set "w" [7] 6, .set "w" [8] 9, .set "w" [7] 10]
    let after := (((start [⟨true, 2⟩] false).exec run).act (.commit "w" 5)).1
    (start [⟨true, 2⟩] false).LastSet run "w" 0 2 [7] 10 ∧
    ∃ s', after.stores[0]? = some s' ∧
      (s'.get ⟨9, 6, false, []⟩ [7]).1 = .ok 10 ∧ (s'.get ⟨9, 6, false, []⟩ [8]).1 = .ok 9 ∧
      (s'.get ⟨9, 4, false, []⟩ [7]).1 = .ok 5 ∧ (s'.get ⟨9, 4, false, []⟩ [8]).1 = .error .absent := by
  intro run after
  let t : Txn Nat := ⟨2, 3, true, [([7], ⟨⟨2, some 0⟩, 10⟩), ([8], ⟨⟨0, none⟩, 9⟩)]⟩
  have hfind : ((start [⟨true, 2⟩] false).exec run).txns.find "w" = some ⟨0, t⟩ := by
    decide +kernel
  have hts : t.readTs ≤ 5 := by decide
  obtain ⟨s, s', hs, hs', -, hpublishes, hlast, -⟩ :=
    commit_publishes [⟨true, 2⟩] false hfind hts
  have hsettled : (((start [⟨true, 2⟩] false).exec run).stores[0]?.map fun s : Store Nat =>
      ((s.chain [7]).settledAt 4, (s.chain [8]).settledAt 4)) =
      some (.ok 5, .error .absent) := by decide +kernel
  have hsafe : (after.stores[0]?.map Store.safepoint) = some 3 := by decide +kernel
  rw [hs, Option.map_some, Option.some_inj, Prod.mk.injEq] at hsettled
  rw [hs', Option.map_some, Option.some_inj] at hsafe
  have hearlier := fun key p hp => hpublishes.earlier key p ⟨9, 4, false, []⟩ hp rfl (by decide)
    (by decide) fun _ _ => hsafe.trans_le (by decide)
  refine ⟨hlast [7] _ rfl, s', hs', ?_, ?_, ?_, ?_⟩
  · exact hpublishes.current [7] _ ⟨9, 6, false, []⟩ rfl rfl (by decide) (by decide)
  · exact hpublishes.current [8] _ ⟨9, 6, false, []⟩ rfl rfl (by decide) (by decide)
  · exact (hearlier [7] _ rfl).trans hsettled.1
  · exact (hearlier [8] _ rfl).trans hsettled.2

end System

end RadixStore
