import Mathlib
import RadixStore.Proofs.Store.Publication
import RadixStore.Proofs.Store.Scans

/-!
# What a sweep removes

A sweep goes through all keys, each once, and removes what is garbage: every version behind a newer
one that is committed at or below the safepoint. Chains that are too short it leaves alone. The report
says how many versions went and from how many chains. Nothing else changes, and another sweep right
after finds nothing to remove.
-/

namespace RadixStore

variable {V : Type}

/-! ### One chain -/

/-- A version is kept if no newer one is settled by the safepoint, and only then. -/
theorem append_singleton_prefix_kept_iff {safepoint : Timestamp} {newer older : List (Version V)}
    {v : Version V} : newer ++ [v] <+: kept safepoint (newer ++ v :: older) ↔
      ∀ w ∈ newer, ¬ w.isSettledBy safepoint = true := by
  induction newer with
  | nil => simp
  | cons w newer ih =>
    rw [List.cons_append, List.cons_append, kept_cons, List.cons_prefix_cons, List.forall_mem_cons]
    by_cases hw : w.isSettledBy safepoint = true
    · rw [if_pos hw]
      simp [hw]
    · rw [if_neg hw, ih]
      simp [hw]

theorem cutIn_snd (safepoint : Timestamp) (l : List (Version V)) :
    (Chain.cutIn safepoint l).2 = l.length - (kept safepoint l).length := by
  induction l with
  | nil => rfl
  | cons v l ih =>
    by_cases hv : v.isSettledBy safepoint = true
    · simp [Chain.cutIn, hv]
    · simpa [Chain.cutIn, hv] using ih

namespace Chain

variable {c c' : Chain V} {minLen : Nat} {safepoint : Timestamp}

/-- What trimming leaves of a chain, unless it is too short. -/
def sweptBy (minLen : Nat) (safepoint : Timestamp) (c : Chain V) : Chain V :=
  if minLen ≤ c.length then c.pruned safepoint else c

/-- The chain `c'` is `c` without its garbage. -/
structure Swept (minLen : Nat) (safepoint : Timestamp) (c c' : Chain V) : Prop where
  /-- Versions go from the old end only, and those that stay are what they were. -/
  initial : c'.versions <+: c.versions
  /-- A version stays if no newer one is committed at or below the safepoint, and only then. -/
  garbage : minLen ≤ c.length → ∀ newer v older, c.versions = newer ++ v :: older →
    (newer ++ [v] <+: c'.versions ↔ ∀ w ∈ newer, ¬ (w.committed = true ∧ w.beginTs ≤ safepoint))
  /-- A short chain stays as it is. -/
  short : c.length < minLen → c' = c
  /-- A pending version stays, and so does the one that it is to supersede. -/
  pending : ∀ head older, c.versions = head :: older → head.committed = false →
    head :: older.take 1 <+: c'.versions
  nextSerial_eq : c'.nextSerial = c.nextSerial

theorem trim_snd (c : Chain V) (safepoint : Timestamp) :
    (c.trim safepoint).2 = c.length - (c.pruned safepoint).length :=
  cutIn_snd safepoint c.versions

theorem initial_sweptBy (minLen : Nat) (safepoint : Timestamp) (c : Chain V) :
    (c.sweptBy minLen safepoint).versions <+: c.versions := by
  unfold sweptBy
  split
  · exact kept_initial c.versions
  · exact List.prefix_rfl

theorem pending_kept {head : Version V} {older : List (Version V)} (h : head.committed = false) :
    head :: older.take 1 <+: kept safepoint (head :: older) := by
  have hhead : ¬ head.isSettledBy safepoint = true := by simp [Version.isSettledBy, h]
  rw [kept_cons, if_neg hhead]
  cases older with
  | nil => simp
  | cons prior older => simp [List.cons_prefix_cons]

theorem swept_sweptBy (minLen : Nat) (safepoint : Timestamp) (c : Chain V) :
    c.Swept minLen safepoint (c.sweptBy minLen safepoint) where
  initial := initial_sweptBy minLen safepoint c
  garbage hlen newer v older hversions := by
    rw [sweptBy, if_pos hlen, Chain.pruned, hversions, append_singleton_prefix_kept_iff]
    simp only [Version.isSettledBy, Bool.and_eq_true, decide_eq_true_eq]
  short hlen := if_neg (not_le.2 hlen)
  pending head older hversions hhead := by
    unfold sweptBy
    split
    · rw [Chain.pruned, hversions]
      exact pending_kept hhead
    · rw [hversions]
      exact List.cons_prefix_cons.2 ⟨rfl, List.take_prefix 1 older⟩
  nextSerial_eq := by
    unfold sweptBy
    split <;> rfl

/-- What was swept has no garbage. -/
@[simp] theorem sweptBy_sweptBy (minLen : Nat) (safepoint : Timestamp) (c : Chain V) :
    (c.sweptBy minLen safepoint).sweptBy minLen safepoint = c.sweptBy minLen safepoint := by
  by_cases hlen : minLen ≤ c.length
  · have hpruned : c.sweptBy minLen safepoint = c.pruned safepoint := if_pos hlen
    rw [hpruned, sweptBy]
    split
    · exact pruned_pruned le_rfl c
    · rfl
  · have hsame : c.sweptBy minLen safepoint = c := if_neg hlen
    rw [hsame, hsame]

@[simp] theorem sweptBy_empty (minLen : Nat) (safepoint : Timestamp) :
    (empty : Chain V).sweptBy minLen safepoint = empty := by
  unfold sweptBy
  split <;> rfl

end Chain

/-! ### The places, whatever the length of the keys -/

namespace Tree

variable {t : Tree V} {key : Key}

/-- A tree whose nodes have different numbers and that knows how many keys it stores. -/
structure Orderly (t : Tree V) : Prop where
  numbered : t.Numbered
  counted : ∃ m, t.Represents m

theorem Orderly.valid (h : t.Orderly) : t.Valid :=
  h.counted.elim fun _ hm => hm.valid

theorem Grown.orderly {L : Nat} (h : t.Grown L) : t.Orderly :=
  ⟨h.numbered, h.counted⟩

theorem Orderly.getOrInsert (h : t.Orderly) (key : Key) (make : Unit → V) :
    (t.getOrInsert key make).written.tree.Orderly := by
  obtain ⟨-, hcase⟩ := h.valid.getOrInsert key make
  cases hget : t.get? key with
  | some found =>
    rw [hget] at hcase
    obtain ⟨-, -, htree⟩ := hcase
    rw [htree]
    exact h
  | none =>
    rw [hget] at hcase
    obtain ⟨-, -, hedit, hsize⟩ := hcase
    obtain ⟨m, hm⟩ := h.counted
    exact ⟨hedit.numbered h.numbered, m.insert key (make ()), hm.stored hedit (by rw [hsize, hget]; rfl)⟩

end Tree

namespace System

variable {sys : System V} {i : Nat} {s : Store V}

theorem Sound.orderly_act (h : sys.Sound) (a : Action V) (hplaces : ∀ q ∈ sys.places, q.Orderly) :
    ∀ q ∈ (sys.act a).1.places, q.Orderly := by
  obtain ⟨L, hL⟩ : ∃ L, a.keysBelow L = true := by
    cases a with
    | set name key value => exact ⟨key.length + 1, decide_eq_true (Nat.lt_succ_self _)⟩
    | _ => exact ⟨0, rfl⟩
  rcases h.grows a hL with hsame | ⟨j, p, key, hp, -, hset⟩
  · rw [hsame]
    exact hplaces
  · rw [hset]
    intro q hq
    rcases List.mem_or_eq_of_mem_set hq with hq | rfl
    · exact hplaces q hq
    · exact (hplaces p (List.mem_of_getElem? hp)).getOrInsert key _

theorem Sound.orderly_exec (h : sys.Sound) (hplaces : ∀ q ∈ sys.places, q.Orderly)
    (actions : List (Action V)) : ∀ q ∈ (sys.exec actions).places, q.Orderly := by
  induction actions generalizing sys with
  | nil => exact hplaces
  | cons a actions ih => exact ih (h.act a).sound (h.orderly_act a hplaces)

theorem Reachable.orderly (h : sys.Reachable) (hs : sys.stores[i]? = some s) : s.places.Orderly := by
  obtain ⟨configs, shared, actions, rfl⟩ := h
  have hstart : ∀ q ∈ (start configs shared : System V).places, q.Orderly := fun q hq =>
    (grown_start configs shared 0 q hq).orderly
  exact (sound_start configs shared).orderly_exec hstart actions _
    (List.mem_of_getElem? (places_of_store hs))

end System

/-! ### Many chains -/

namespace Store

variable {s s' : Store V} {key : Key} {keys : List Key} {safepoint : Timestamp} {g : SweepReport}

theorem chain_trimChain_eq (hs : s.index.Valid) (key : Key) (safepoint : Timestamp) :
    (s.trimChain key safepoint).1.chain =
      Function.update s.chain key ((s.chain key).sweptBy s.config.gcMinChainLen safepoint) := by
  funext k
  rw [chain_trimChain hs, Function.update_apply]
  by_cases hk : k = key
  · subst hk
    simp only [true_and, if_true, Chain.sweptBy]
  · simp only [hk, false_and, if_false]

/-- Trimming counts the versions by which the chain has become shorter. -/
theorem trimChain_snd (s : Store V) (key : Key) (safepoint : Timestamp) :
    (s.trimChain key safepoint).2 = (s.chain key).length -
      ((s.chain key).sweptBy s.config.gcMinChainLen safepoint).length := by
  unfold trimChain
  cases hc : s.chain? key with
  | none =>
    have hempty : s.chain key = .empty := by simp [chain, hc]
    rw [hempty, Chain.sweptBy_empty, Nat.sub_self]
  | some c =>
    rw [chain_eq_of_chain? hc]
    dsimp only
    unfold Chain.sweptBy
    by_cases hlen : c.length < s.config.gcMinChainLen
    · rw [if_pos hlen, if_neg (not_le.2 hlen), Nat.sub_self]
    · rw [if_neg hlen, if_pos (not_lt.1 hlen)]
      exact c.trim_snd safepoint

theorem sweepKeys_cons (s : Store V) (g : SweepReport) (key : Key) (keys : List Key) :
    s.sweepKeys g (key :: keys) = (s.trimChain key g.safepoint).1.sweepKeys
      (g.visited (s.trimChain key g.safepoint).2) keys :=
  rfl

/-- By how much a sweep of the key makes its chain shorter. -/
def garbage (s : Store V) (safepoint : Timestamp) (key : Key) : Nat :=
  (s.chain key).length - ((s.chain key).sweptBy s.config.gcMinChainLen safepoint).length

theorem sweepKeys_snd (hs : s.index.Valid) (hkeys : keys.Nodup) (g : SweepReport) :
    (s.sweepKeys g keys).2 =
      ⟨g.inspected + keys.length,
        g.pruned + keys.countP (0 < s.garbage g.safepoint ·),
        g.reclaimed + (keys.map (s.garbage g.safepoint)).sum, g.safepoint⟩ := by
  induction keys generalizing s g with
  | nil => rfl
  | cons key keys ih =>
    obtain ⟨hnot, hkeys⟩ := List.nodup_cons.1 hkeys
    obtain ⟨hrechained, -⟩ := trimChain_spec hs key g.safepoint
    have hlater : ∀ k ∈ keys, (s.trimChain key g.safepoint).1.garbage g.safepoint k =
        s.garbage g.safepoint k := by
      intro k hk
      have hne : k ≠ key := fun heq => hnot (heq ▸ hk)
      unfold garbage
      rw [chain_trimChain_eq hs, Function.update_of_ne hne, hrechained.config_eq]
    have hfirst : (s.trimChain key g.safepoint).2 = s.garbage g.safepoint key :=
      trimChain_snd s key g.safepoint
    have hcount : (if 0 < s.garbage g.safepoint key then g.pruned + 1 else g.pruned) +
        keys.countP (0 < s.garbage g.safepoint ·) =
          g.pruned + (key :: keys).countP (0 < s.garbage g.safepoint ·) := by
      rw [List.countP_cons]
      simp only [decide_eq_true_eq]
      split <;> omega
    rw [sweepKeys_cons, ih (hrechained.valid hs) hkeys, hfirst, SweepReport.visited]
    dsimp only
    rw [List.map_congr_left hlater, List.countP_congr fun k hk => by rw [hlater k hk], hcount,
      List.map_cons, List.sum_cons, List.length_cons, Nat.add_assoc, Nat.add_assoc,
      Nat.add_comm 1]

/-- A store without garbage stays as it is. -/
theorem trimChain_of_swept (hs : s.index.Valid)
    (h : (s.chain key).sweptBy s.config.gcMinChainLen safepoint = s.chain key) :
    s.trimChain key safepoint = (s, 0) := by
  unfold trimChain
  cases hc : s.chain? key with
  | none => rfl
  | some c =>
    rw [chain_eq_of_chain? hc, Chain.sweptBy] at h
    dsimp only
    by_cases hlen : c.length < s.config.gcMinChainLen
    · rw [if_pos hlen]
    · rw [if_neg hlen]
      rw [if_pos (not_lt.1 hlen)] at h
      have htrim : (c.trim safepoint).1 = c := h
      have hcut : (c.trim safepoint).2 = 0 := by rw [Chain.trim_snd, h, Nat.sub_self]
      have hself : s.updateChain key (fun _ => c) = s := by
        unfold updateChain
        rw [hs.update_self hc rfl]
      rw [htrim, hcut, hself]

theorem sweepKeys_fst_of_swept (hs : s.index.Valid)
    (h : ∀ key, (s.chain key).sweptBy s.config.gcMinChainLen g.safepoint = s.chain key) :
    (s.sweepKeys g keys).1 = s := by
  rw [sweepKeys_fst]
  induction keys with
  | nil => rfl
  | cons key keys ih => rw [List.foldl_cons, trimChain_of_swept hs (h key), ih]

/-! ### Going through all keys -/

/-- A cursor that is asked often enough yields the keys that lie ahead, and stops. -/
theorem map_key_collect (hs : s.index.Valid) (hp : s.places.Valid) (hnum : s.places.Numbered)
    (fuel : Nat) {c : Cursor} (h : s.Scannable c) (hdone : c.done = false)
    (hfuel : (s.keysAhead c.progress).length < fuel) :
    (c.collect s.index fuel).map Leaf.key = s.keysAhead c.progress := by
  induction fuel generalizing c with
  | zero => exact absurd hfuel (Nat.not_lt_zero _)
  | succ fuel ih =>
    obtain ⟨hexact, hnext⟩ := exact_next hs hp hnum h hdone
    have hahead := keysAhead_next hs h.pastStart hexact hdone
    have hprogress := Cursor.progress_next hdone s.index
    unfold Cursor.collect
    dsimp only
    cases hi : (c.next s.index).item with
    | none =>
      rw [hi] at hahead
      exact hahead.symm
    | some l =>
      rw [hi] at hahead hprogress
      dsimp only at hahead hprogress ⊢
      have hdone' : (c.next s.index).cursor.done = false :=
        (congrArg Progress.ended hprogress).trans hdone
      rw [hahead, List.length_cons] at hfuel
      rw [List.map_cons, hahead, ih hnext hdone' (by omega)]

/-- Going through the index from its beginning to its end is going through all keys. -/
theorem map_key_scan (hs : s.index.Valid) (hp : s.places.Orderly) :
    (s.index.scan none none .forward none).map Leaf.key = s.keys := by
  have hall : s.keysAhead (Cursor.facing .forward none none).progress = s.keys :=
    List.filter_eq_self.2 fun _ _ => rfl
  have hscannable : s.Scannable (.facing .forward none none) :=
    ⟨.unstarted rfl rfl rfl, fun key hkey => by cases hkey⟩
  have hlength := length_keysAhead_le hp.counted (Cursor.facing .forward none none).progress
  rw [← hall]
  exact map_key_collect hs hp.valid hp.numbered _ hscannable rfl (Nat.lt_succ_of_le hlength)

/-! ### Sweeps -/

/-- A sweep of `s` leaves `s'` and reports what it did: everything that is to be said of it. -/
structure Sweeps (s s' : Store V) (report : SweepReport) : Prop where
  /-- All keys are visited one after the other, -/
  visits : (s', report) = s.sweepKeys ⟨0, 0, 0, s.safepoint⟩ s.keys
  /-- each of them once, -/
  once : s.keys.Nodup
  /-- and they are those that were ever written. -/
  written : ∀ key, key ∈ s.keys ↔ (s.chain? key).isSome
  inspected : report.inspected = s.size
  safepoint : report.safepoint = s.safepoint
  chains : ∀ key, (s.chain key).Swept s.config.gcMinChainLen s.safepoint (s'.chain key)
  /-- The chains that lost a version, -/
  pruned : report.pruned =
    s.keys.countP fun key => (s'.chain key).length < (s.chain key).length
  /-- and the versions that went from all of them. -/
  reclaimed : report.reclaimed =
    (s.keys.map fun key => (s.chain key).length - (s'.chain key).length).sum
  /-- The keys and the nodes of the index stay what they are. -/
  places : s'.places = s.places
  active : s'.active = s.active
  watermark : s'.watermark = s.watermark
  config : s'.config = s.config

theorem gc_eq (hs : s.index.Valid) (hp : s.places.Orderly) :
    s.gc = s.sweepKeys ⟨0, 0, 0, s.safepoint⟩ s.keys := by
  unfold Store.gc
  rw [map_key_scan hs hp]

theorem nodup_keys (hs : s.index.Valid) : s.keys.Nodup :=
  Tree.Valid.nodup_keys hs

theorem chain_gc (hs : s.index.Valid) (hp : s.places.Orderly) (key : Key) :
    s.gc.1.chain key = (s.chain key).sweptBy s.config.gcMinChainLen s.safepoint := by
  rw [gc_eq hs hp, sweepKeys_fst, chain_trimmed hs]
  by_cases hkey : key ∈ s.keys
  · simp only [hkey, true_and, Chain.sweptBy]
  · have hnone : s.chain? key = none := by
      simpa [mem_keys_iff hs] using hkey
    have hempty : s.chain key = .empty := by simp [chain, hnone]
    simp [hkey, hempty]

theorem sweeps_gc (hs : s.index.Valid) (hp : s.places.Orderly) : s.Sweeps s.gc.1 s.gc.2 := by
  have hgc := gc_eq hs hp
  have hchain := chain_gc hs hp
  have hreport := sweepKeys_snd hs (nodup_keys hs) ⟨0, 0, 0, s.safepoint⟩
  have hrechained := (foldl_trimChain_spec hs s.safepoint s.keys).1
  rw [← sweepKeys_fst s ⟨0, 0, 0, s.safepoint⟩, ← hgc] at hrechained
  rw [← hgc] at hreport
  have hlost : ∀ key, s.garbage s.safepoint key =
      (s.chain key).length - (s.gc.1.chain key).length := fun key => by rw [hchain, garbage]
  refine ⟨hgc, nodup_keys hs, fun key => mem_keys_iff hs, ?_, ?_, ?_, ?_, ?_, ?_,
    hrechained.active_eq, hrechained.watermark_eq, hrechained.config_eq⟩
  · simp [hreport, length_keys hp.counted]
  · simp [hreport]
  · intro key
    rw [hchain]
    exact Chain.swept_sweptBy _ _ _
  · simp [hreport, hlost]
  · simp [hreport, funext hlost]
  · exact (keeps_gc s hs).2

/-- A sweep right after a sweep finds nothing. -/
theorem gc_gc (hs : s.index.Valid) (hp : s.places.Orderly) :
    s.gc.1.gc = (s.gc.1, ⟨s.size, 0, 0, s.safepoint⟩) := by
  have hsweeps := sweeps_gc hs hp
  obtain ⟨hvalid, hplaces⟩ := keeps_gc s hs
  have horderly : s.gc.1.places.Orderly := by rwa [hplaces]
  have hsafe : s.gc.1.safepoint = s.safepoint := by
    simp [Store.safepoint, hsweeps.active, hsweeps.watermark]
  have hclean : ∀ key, (s.gc.1.chain key).sweptBy s.gc.1.config.gcMinChainLen s.gc.1.safepoint =
      s.gc.1.chain key := by
    intro key
    rw [hsafe, hsweeps.config, chain_gc hs hp, Chain.sweptBy_sweptBy]
  have hstore : s.gc.1.gc.1 = s.gc.1 := by
    rw [gc_eq hvalid horderly, sweepKeys_fst_of_swept hvalid hclean]
  have hsize : s.gc.1.size = s.size := by
    rw [← length_keys horderly.counted, ← length_keys hp.counted, keys_eq_of_places hplaces]
  have hagain := sweeps_gc hvalid horderly
  generalize s.gc.1.gc = again at hstore hagain
  obtain ⟨s', inspected, pruned, reclaimed, safepoint⟩ := again
  have hinspected := hagain.inspected
  have hsafepoint := hagain.safepoint
  have hpruned := hagain.pruned
  have hreclaimed := hagain.reclaimed
  simp_all

end Store

/-! ### Sweeps in a system -/

namespace System

variable {sys : System V} {i : Nat} {s : Store V}

theorem setStore_self (hs : sys.stores[i]? = some s) : sys.setStore i s = sys := by
  obtain ⟨hi, rfl⟩ := List.getElem?_eq_some_iff.1 hs
  simp [setStore]

theorem act_gc (hs : sys.stores[i]? = some s) : sys.act (.gc i) =
    ({ sys.setStore i s.gc.1 with reclaimed := sys.reclaimed + s.gc.2.reclaimed },
      .swept s.gc.2) := by
  simp [act, onStore, hs]

/-- A sweep removes the garbage and nothing else. Whatever was done before and however the stores are
    configured, every key is visited once, and of its chain, if that is long enough, exactly those
    versions go that stand behind a newer one committed at or below the safepoint. The report counts
    the chains that lost versions and the versions, and the system counts the versions too. Everything
    else stays as it is, and another sweep right after changes nothing and reports nothing. -/
theorem Reachable.gc_sweeps (h : sys.Reachable) (hs : sys.stores[i]? = some s) :
    ∃ s' report, s.Sweeps s' report ∧
      sys.act (.gc i) =
        ({ sys.setStore i s' with reclaimed := sys.reclaimed + report.reclaimed },
          .swept report) ∧
      (sys.act (.gc i)).1.act (.gc i) =
        ((sys.act (.gc i)).1, .swept ⟨s.size, 0, 0, s.safepoint⟩) := by
  have hvalid := (h.sound.stores i s hs).valid
  have horderly := h.orderly hs
  have hact := act_gc hs
  refine ⟨s.gc.1, s.gc.2, Store.sweeps_gc hvalid horderly, hact, ?_⟩
  have hafter : (sys.act (.gc i)).1.stores[i]? = some s.gc.1 := by
    rw [hact]
    exact List.getElem?_set_self (List.getElem?_eq_some_iff.1 hs).1
  rw [act_gc hafter, Store.gc_gc hvalid horderly, setStore_self hafter]
  rfl

/-- A transaction has one key pending that was committed twice before, and one that is new. The older
    of the two committed versions goes. -/
theorem gc_sweeps_amid_write :
    let sys := (start [⟨false, 2⟩] false : System Nat).exec
      [.openTxn 0 "w" 1 true, .set "w" [7] 5, .commit "w" 2, .openTxn 0 "w" 3 true, .set "w" [7] 6,
        .commit "w" 4, .openTxn 0 "w" 5 true, .set "w" [7] 7, .set "w" [8] 9,
        .advanceWatermark 0 6]
    ∃ s s', sys.stores[0]? = some s ∧ s.Sweeps s' ⟨2, 1, 1, 5⟩ ∧
      (s'.chain [7]).versions.map Version.value = [7, 6] ∧
      (s'.chain [8]).versions.map Version.value = [9] := by
  intro sys
  have hrun : (sys.stores[0]?.map fun s : Store Nat =>
      let r := s.sweepKeys ⟨0, 0, 0, s.safepoint⟩ s.keys
      (r.2, (r.1.chain [7]).versions.map Version.value,
        (r.1.chain [8]).versions.map Version.value)) = some (⟨2, 1, 1, 5⟩, [7, 6], [9]) := by
    decide +kernel
  obtain ⟨s, hs, hswept⟩ := Option.map_eq_some_iff.1 hrun
  obtain ⟨s', report, hsweeps, -⟩ := Reachable.gc_sweeps ⟨_, _, _, rfl⟩ hs
  simp only [← hsweeps.visits, Prod.mk.injEq] at hswept
  obtain ⟨rfl, hfirst, hsecond⟩ := hswept
  exact ⟨s, s', hs, hsweeps, hfirst, hsecond⟩

end System

end RadixStore
