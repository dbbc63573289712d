import Mathlib
import RadixStore.Proofs.Store.Annals
import RadixStore.Proofs.Store.Collection
import RadixStore.Proofs.Store.Effects

/-!
# Transactions that are given up

A transaction that is discarded, or committed below its read timestamp, or opened anew under its name,
leaves nothing behind. Each key that it has written gets back what was committed there when it wrote the
key first, however often it wrote the key after that and whatever others did in the meantime; only sweeps
may have cut off oldest versions. Of a key that nobody else has written only the entry remains.
-/

namespace RadixStore

variable {V : Type}

namespace Chain

variable {c : Chain V} {d : Draft V} {hist : List (Version V)} {ts : Timestamp} {reader : TxnId}

/-- The history is the timeline with the lock of the draft taken off. -/
theorem Shape.timeline_abort (h : c.Shape (some d) hist) :
    c.timeline.map (abortVersion (installedOn d.serial hist)) = hist := by
  have habort := h.abort?
  have hnewest : c.isNewest (installedOn d.serial hist).node = true := by
    by_contra hother
    simp [Chain.abort?, hother] at habort
  have hsince : c.since (installedOn d.serial hist).prior = c.timeline := by
    rw [h.since, h.timeline_eq]
    rfl
  simp only [Chain.abort?, hnewest, if_true, hsince, Option.some.injEq, Chain.mk.injEq] at habort
  exact habort.1

theorem look_of_nil (h : c.versions = []) : (c.look ts reader).1 = .absent := by
  simp [Chain.look, h, lookIn]

end Chain

/-! ### What is left in the store -/

namespace Store

variable {s s' : Store V} {t u : Txn V} {key : Key} {p : Pending V} {txns : Multiset (Txn V)}

theorem chain?_eq_some (h : (s.chain? key).isSome) : s.chain? key = some (s.chain key) := by
  obtain ⟨c, hc⟩ := Option.isSome_iff_exists.1 h
  rw [hc, chain_eq_of_chain? hc]

theorem isSome_chain?_of_places (h : s'.places = s.places) (key : Key) :
    (s'.chain? key).isSome = (s.chain? key).isSome := by
  have hstored : ∀ r : Store V, (r.places.get? key).isSome = (r.chain? key).isSome := by
    intro r
    simp [places, Tree.get?_map, Store.chain?]
  rw [← hstored, ← hstored, h]

theorem chain?_congr (hplaces : s'.places = s.places) (h : s'.chain key = s.chain key) :
    s'.chain? key = s.chain? key := by
  have hsome := isSome_chain?_of_places hplaces key
  cases hc : s.chain? key with
  | none =>
    rw [hc] at hsome
    simpa using hsome
  | some c =>
    rw [hc] at hsome
    rw [chain?_eq_some hsome, h, chain_eq_of_chain? hc]

/-- The store `s'` is `s` without the transaction `t` and without its pending writes. -/
structure Abandons (s : Store V) (t : Txn V) (s' : Store V) : Prop where
  /-- Of a key that `t` has written its pending version stood in front of the committed ones. -/
  pending : ∀ key p, t.pending? key = some p → (s.chain key).versions =
    .pending p.installed.node (some t.id) p.value :: (s.chain key).timeline
  /-- The committed ones remain, and so does the entry of the key. Nothing changes about them but that
      the one that `t` was to supersede is released. -/
  remaining : ∀ key p, t.pending? key = some p → s'.chain? key =
    some ⟨(s.chain key).timeline.map (Chain.abortVersion p.installed), (s.chain key).nextSerial⟩
  /-- That one is the newest again, if there was one. -/
  head : ∀ key p, t.pending? key = some p →
    (s'.chain key).versions.head?.map Version.serial = p.installed.prior
  settled : ∀ key p, t.pending? key = some p →
    ∀ v ∈ (s'.chain key).versions, v.committed = true ∧ v.holder = none
  /-- Other chains stay as they are. -/
  elsewhere : ∀ key, t.pending? key = none → s'.chain? key = s.chain? key
  /-- The keys and the nodes of the index stay what they are, -/
  places : s'.places = s.places
  /-- and all the keys count. -/
  size : s'.size = s.size
  /-- The registry has one entry less at the timestamp of `t`. -/
  registry : s.active.members = t.readTs ::ₘ s'.active.members
  watermark : s'.watermark = s.watermark
  config : s'.config = s.config

section Discard

variable (hs : s.Sound (t ::ₘ txns)) (hd : s.Drafted t)

include hs

theorem chain_discard (key : Key) : (s.discard t).chain key =
    match t.pending? key with
    | none => s.chain key
    | some p => (s.chain key).abort p.installed := by
  rw [discard_eq]
  exact (withdraw_spec hs.valid (hs.writes t (Multiset.mem_cons_self t txns))).2 key

include hd

/-- To discard a transaction is to take its drafts out. -/
theorem chain_discard_of_pending (hp : t.pending? key = some p) :
    ∃ serial hist, (s.chain key).Shape (some ⟨t.id, serial, p.value⟩) hist ∧
      p.installed = installedOn serial hist ∧
      (s.discard t).chain key = ⟨hist, (s.chain key).nextSerial⟩ := by
  obtain ⟨⟨owner, serial, value⟩, hist, hshape, hinstalled, rfl, rfl⟩ := hd key p hp
  refine ⟨serial, hist, hshape, hinstalled, ?_⟩
  rw [chain_discard hs, hp]
  dsimp only
  rw [hinstalled, hshape.abort]

theorem abandons_discard : s.Abandons t (s.discard t) := by
  obtain ⟨hvalid, hplaces⟩ := keeps_discard s t hs.valid
  have hrechained := (withdraw_spec hs.valid (hs.writes t (Multiset.mem_cons_self t txns))).1
  refine ⟨?_, ?_, ?_, ?_, ?_, hplaces, ?_, ?_, hrechained.watermark_eq, hrechained.config_eq⟩
  · intro key p hp
    obtain ⟨serial, hist, hshape, hinstalled, -⟩ := chain_discard_of_pending hs hd hp
    rw [hshape.versions_eq, hshape.timeline_eq, hinstalled]
    rfl
  · intro key p hp
    obtain ⟨serial, hist, hshape, hinstalled, hafter⟩ := chain_discard_of_pending hs hd hp
    have hstored : ((s.discard t).chain? key).isSome := by
      rw [isSome_chain?_of_places hplaces]
      exact hd.isSome hp
    rw [chain?_eq_some hstored, hafter, hinstalled, hshape.timeline_abort]
  · intro key p hp
    obtain ⟨serial, hist, -, hinstalled, hafter⟩ := chain_discard_of_pending hs hd hp
    simp [hafter, hinstalled, installedOn]
  · intro key p hp v hv
    obtain ⟨serial, hist, hshape, -, hafter⟩ := chain_discard_of_pending hs hd hp
    rw [hafter] at hv
    exact ⟨hshape.history.committed hv, hshape.history.released hv⟩
  · intro key hp
    refine chain?_congr hplaces ?_
    rw [chain_discard hs, hp]
  · have hsize : (s.discard t).places.size = s.places.size := by rw [hplaces]
    exact hsize
  · have hmembers := hs.members_eq
    rw [Multiset.map_cons] at hmembers
    have hmem : t.readTs ∈ s.active.members := by simp [hmembers]
    have hleave := hs.ordered.members_leave hmem
    rw [← hrechained.active_eq] at hleave ⊢
    exact hleave

end Discard

end Store

/-! ### Giving up in a run -/

namespace System

variable {sys : System V} {name : String} {i : Nat} {t : Txn V} {s : Store V} {key : Key}
  {p : Pending V} {ts : Timestamp} {a : Action V} {answer : Answer V}

/-- By the action the transaction `t`, called `name`, is given up, and this is answered. -/
inductive GivesUp (name : String) (t : Txn V) : Action V → Answer V → Prop
  /-- It is discarded, or dropped, which is the same. -/
  | discard : GivesUp name t (.discard name) .done
  /-- It is committed below the timestamp at which it reads. -/
  | commit {ts : Timestamp} : ts < t.readTs →
      GivesUp name t (.commit name ts) (.verdict (.error .beforeRead))

/-- However it is given up, it is discarded. -/
theorem GivesUp.act_eq (h : GivesUp name t a answer) (hfind : sys.txns.find name = some ⟨i, t⟩)
    (hs : sys.stores[i]? = some s) :
    sys.act a = ({ sys.setStore i (s.discard t) with txns := sys.txns.unbind name }, answer) := by
  cases h with
  | discard => exact act_discard hfind hs
  | commit hts => simp [act_commit hfind hs, Store.commit_of_lt hts, setStore]

/-- After the actions `before` of a run of new stores a transaction writes `key` of store `i` first.
    When it has been given up, after `mid`, the store is `s'`. -/
structure Restores (sys : System V) (before mid : List (Action V)) (i : Nat) (key : Key)
    (s' : Store V) : Prop where
  /-- The committed versions are those of the moment of the first write. Sweeps may have cut off the
      oldest ones, -/
  annals : (s'.chain key).annals <+: ((sys.exec before).cell i key).chain.annals
  /-- and nothing else has. -/
  unswept : .gc i ∉ mid → (s'.chain key).annals = ((sys.exec before).cell i key).chain.annals
  /-- The newest one of that moment is in front, if there was one. -/
  head : (s'.chain key).versions.head?.map Version.mark =
    ((sys.exec before).cell i key).chain.newest?

/-- In the run nobody but the transaction `id` has written `key` of store `i`. -/
def OnlyWriter (sys : System V) (run : List (Action V)) (i : Nat) (key : Key) (id : TxnId) : Prop :=
  ∀ before name value mid u, run = before ++ .set name key value :: mid →
    (sys.exec before).FirstWrites name key value i u → u.id = id

/-- A key that was written by somebody who is given up has again what was there at the first write. -/
theorem exists_restores (configs : List Config) (shared : Bool) {run : List (Action V)}
    (hfind : ((start configs shared : System V).exec run).txns.find name = some ⟨i, t⟩)
    (hs : ((start configs shared : System V).exec run).stores[i]? = some s)
    (hp : t.pending? key = some p) :
    ∃ before value mid u, run = before ++ .set name key value :: mid ∧
      ((start configs shared).exec before).FirstWrites name key value i u ∧ u.id = t.id ∧
      (start configs shared).Restores before mid i key (s.discard t) := by
  have hnew : (start configs shared : System V).Reachable := ⟨configs, shared, [], rfl⟩
  have hreachable := hnew.exec run
  have hpending : (t.pending? key).isSome := by simp [hp]
  obtain ⟨before, value, mid, u, rfl, hwrites, hid, -⟩ :=
    exists_firstWrites configs shared hfind hpending
  refine ⟨before, value, mid, u, rfl, hwrites, hid, ?_⟩
  -- up to the end the annals last, and the end itself does not change them
  have hopen : t ∈ openOn (((start configs shared).exec before).exec
      (.set name key value :: mid ++ [])).txns i := by
    rw [List.append_nil, ← exec_append]
    exact hreachable.sound.mem_openOn hfind
  obtain ⟨hcut, hsame⟩ := hwrites.annals_last (hnew.exec before) hopen hid.symm
  unfold KeepsAnnals at hsame
  rw [← exec_append] at hcut hsame
  have hannals : ((s.discard t).chain key).annals =
      (((start configs shared).exec (before ++ .set name key value :: mid)).cell i key).chain.annals := by
    obtain ⟨draft, hist, hholds⟩ := hreachable.holds_find hfind hs key
    have hsound := hreachable.sound.stores i s hs
    rw [cell_of_store hs]
    exact Store.annals_discard hsound.valid (hreachable.sound.nodup_writes hfind hs) hholds
  obtain ⟨hsound, hdrafted⟩ := hreachable.openTxn hfind hs
  obtain ⟨serial, hist, hshape, -, hafter⟩ := Store.chain_discard_of_pending hsound hdrafted hp
  have hnewest : ((s.discard t).chain key).newest? =
      ((s.discard t).chain key).versions.head?.map Version.mark := by
    rw [hafter, hshape.undrafted.newest?_eq]
  constructor
  · rw [hannals]
    exact hcut.annals_prefix
  · intro hgc
    exact hannals.trans (hsame hgc)
  · rw [← hnewest, Chain.newest?_of_annals hannals]
    exact hcut.newest_eq

/-- Of a key that nobody else has written nothing but the entry remains. -/
theorem OnlyWriter.absent (configs : List Config) (shared : Bool) {run : List (Action V)}
    (honly : (start configs shared).OnlyWriter run i key t.id)
    (hfind : ((start configs shared : System V).exec run).txns.find name = some ⟨i, t⟩)
    (hs : ((start configs shared : System V).exec run).stores[i]? = some s)
    (hp : t.pending? key = some p) :
    ((s.discard t).chain key).versions = [] ∧
      ∀ u, u.pending? key = none → ((s.discard t).get u key).1 = .error .absent := by
  have hreachable : ((start configs shared : System V).exec run).Reachable :=
    ⟨configs, shared, run, rfl⟩
  obtain ⟨hsound, hdrafted⟩ := hreachable.openTxn hfind hs
  obtain ⟨serial, hist, hshape, -, hafter⟩ := Store.chain_discard_of_pending hsound hdrafted hp
  have hentries : (((start configs shared : System V).exec run).cell i key).chain.annals =
      hist.map Version.entry := by
    rw [cell_of_store hs]
    exact hshape.annals_eq
  have hnil : hist = [] := by
    by_contra hne
    -- somebody has committed the key, who is not open any more and so not `t`
    have hannals : (((start configs shared : System V).exec run).cell i key).chain.annals ≠ [] := by
      simp [hentries, hne]
    obtain ⟨before, other, value, mid, u, hrun, hwrites, hclosed⟩ :=
      exists_writer configs shared hannals
    exact hclosed t (hreachable.sound.mem_openOn hfind) (honly _ _ _ _ _ hrun hwrites).symm
  have hversions : ((s.discard t).chain key).versions = [] := by rw [hafter, hnil]
  refine ⟨hversions, fun u hu => ?_⟩
  have hvalid := (Store.keeps_discard s t hsound.valid).1
  rw [(Store.get_of_free hvalid hu).1, Chain.look_of_nil hversions]
  rfl

/-- Whoever is given up leaves nothing behind. In every run of new stores an open transaction can be
    discarded, or dropped, or committed below the timestamp at which it reads, which is refused: it is
    all the same. Every key that it has written has again the committed versions of the moment when it
    wrote the key first, whatever was done since, but for oldest ones that sweeps have cut off; the one
    that it was to supersede is in front and released, and a key that nobody else has written reads as
    absent but still counts. No version is held by it, and its end changes nothing else about the
    versions, the other keys, the other transactions and the other stores. It is no longer registered,
    and its end cannot be repeated. To open another transaction under its name discards it too. -/
theorem abandoned_without_trace (configs : List Config) (shared : Bool) {run : List (Action V)}
    (hfind : ((start configs shared : System V).exec run).txns.find name = some ⟨i, t⟩)
    (hgives : GivesUp name t a answer) :
    let sys := (start configs shared).exec run
    let after := (sys.act a).1
    ∃ s s', sys.stores[i]? = some s ∧ s.Abandons t s' ∧
      sys.act a = ({ sys.setStore i s' with txns := sys.txns.unbind name }, answer) ∧
      (∀ key p, t.pending? key = some p →
        (∃ before value mid u, run = before ++ .set name key value :: mid ∧
          ((start configs shared).exec before).FirstWrites name key value i u ∧ u.id = t.id ∧
          (start configs shared).Restores before mid i key s') ∧
        ((start configs shared).OnlyWriter run i key t.id →
          (s'.chain key).versions = [] ∧
            ∀ u, u.pending? key = none → (s'.get u key).1 = .error .absent)) ∧
      (∀ key, ∀ v ∈ (s'.chain key).versions, v.holder ≠ some t.id) ∧
      openOn sys.txns i = t ::ₘ openOn after.txns i ∧
      (∀ u ∈ openOn after.txns i, u.id ≠ t.id) ∧
      after.act (.discard name) = (after, .unknown) ∧
      (∀ ts, after.act (.commit name ts) = (after, .unknown)) ∧
      ∀ j readTs update, sys.act (.openTxn j name readTs update) =
        (sys.act (.discard name)).1.act (.openTxn j name readTs update) := by
  intro sys after
  have hreachable : sys.Reachable := ⟨configs, shared, run, rfl⟩
  obtain ⟨s, hs⟩ := hreachable.sound.exists_store hfind
  obtain ⟨hsound, hdrafted⟩ := hreachable.openTxn hfind hs
  have hact := hgives.act_eq hfind hs
  have htxns : after.txns = sys.txns.unbind name := congrArg (fun r => r.1.txns) hact
  have hafter : after.stores[i]? = some (s.discard t) := by
    have hstores : after.stores = sys.stores.set i (s.discard t) :=
      congrArg (fun r => r.1.stores) hact
    rw [hstores]
    exact List.getElem?_set_self (List.getElem?_eq_some_iff.1 hs).1
  have hothers : ∀ u ∈ openOn after.txns i, u.id ≠ t.id := fun u hu =>
    hreachable.sound.id_ne_of_unbind hfind hs (htxns ▸ hu)
  have hgone : after.txns.find name = none := htxns ▸ Bindings.find_unbind_self _ _
  obtain ⟨hdiscard, hcommit⟩ := act_of_find_none hgone
  refine ⟨s, s.discard t, hs, Store.abandons_discard hsound hdrafted, hact, ?_, ?_, ?_, hothers,
    hdiscard, hcommit, fun j readTs update => act_openTxn_eq sys j name readTs update⟩
  · intro key p hp
    exact ⟨exists_restores configs shared hfind hs hp,
      fun honly => honly.absent configs shared hfind hs hp⟩
  · intro key v hv
    rcases (hreachable.act a).holder_cases hafter key hv with ⟨hreleased, -⟩ | ⟨u, hu, hheld⟩
    · simp [hreleased]
    · rw [hheld]
      exact fun heq => hothers u hu (Option.some_inj.1 heq)
  · rw [htxns]
    exact (openOn_of_find hreachable.sound.names hfind).1

/-- A transaction has superseded one key, which it sets twice, and written a new one. In between a reader
    is refused, and a sweep cuts off the older one of the versions that were there. Then it is committed
    too early. -/
theorem abandoned_without_trace_amid_sweep :
    let run : List (Action Nat) := [.openTxn 0 "a" 1 true, .set "a" [7] 4, .commit "a" 2,
      .openTxn 0 "a" 3 true, .set "a" [7] 5, .commit "a" 4, .openTxn 0 "w" 6 true, .set "w" [7] 6,
      .set "w" [8] 9, .openTxn 0 "r" 7 false, .get "r" [7], .advanceWatermark 0 9, .gc 0,
      .set "w" [7] 10]
    let sys := (start [⟨false, 2⟩] false).exec run
    let t : Txn Nat := ⟨3, 6, true, [([7], ⟨⟨3, some 1⟩, 10⟩), ([8], ⟨⟨0, none⟩, 9⟩)]⟩
    sys.txns.find "w" = some ⟨0, t⟩ ∧ 5 < t.readTs ∧
      (sys.act (.commit "w" 5)).2 = .verdict (.error .beforeRead) ∧
      ∃ s' before value mid, (sys.act (.commit "w" 5)).1.stores[0]? = some s' ∧
        run = before ++ .set "w" [7] value :: mid ∧
        (start [⟨false, 2⟩] false).Restores before mid 0 [7] s' ∧
        (s'.chain [7]).versions.map Version.value = [5] ∧ s'.chain? [8] = some ⟨[], 1⟩ := by
  intro run sys t
  have hfind : sys.txns.find "w" = some ⟨0, t⟩ := by decide +kernel
  have hts : 5 < t.readTs := by decide
  obtain ⟨s, s', hs, -, hact, hkeys, -⟩ :=
    abandoned_without_trace [⟨false, 2⟩] false hfind (.commit hts)
  obtain ⟨⟨before, value, mid, -, hrun, -, -, hrestores⟩, -⟩ := hkeys [7] ⟨⟨3, some 1⟩, 10⟩ rfl
  have hafter : (sys.act (.commit "w" 5)).1.stores[0]? = some s' := by
    rw [hact]
    exact List.getElem?_set_self (List.getElem?_eq_some_iff.1 hs).1
  have hchains : ((sys.act (.commit "w" 5)).1.stores[0]?.map fun s : Store Nat =>
      ((s.chain [7]).versions.map Version.value, s.chain? [8])) = some ([5], some ⟨[], 1⟩) := by
    decide +kernel
  rw [hafter, Option.map_some, Option.some_inj, Prod.mk.injEq] at hchains
  exact ⟨hfind, hts, by rw [hact], s', before, value, mid, hafter, hrun, hrestores, hchains⟩

end System

end RadixStore
