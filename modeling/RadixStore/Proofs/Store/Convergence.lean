import Mathlib
import RadixStore.Proofs.Store.Collection
import RadixStore.Proofs.Store.Effects
import RadixStore.Proofs.Store.Sweeps

/-!
# When trimming happens does not matter in the end

Two runs of the same actions that differ in their sweeps, and in whether commits trim on their own, may
leave chains of different lengths. After a sweep the chains are the same, provided that no chain is too
short to be swept.
-/

namespace RadixStore

variable {V : Type}

namespace Chain

/-- A chain of one version is left alone by trimming too. -/
theorem sweptBy_of_le_two {minLen : Nat} (hlen : minLen ≤ 2) (safepoint : Timestamp) (c : Chain V) :
    c.sweptBy minLen safepoint = c.pruned safepoint := by
  by_cases hlong : minLen ≤ c.length
  · exact if_pos hlong
  · have hshort : c.length < 2 := lt_of_lt_of_le (not_le.1 hlong) hlen
    obtain ⟨versions, nextSerial⟩ := c
    unfold sweptBy
    rw [if_neg hlong]
    match versions, hshort with
    | [], _ => rfl
    | [v], _ => simp [pruned]

end Chain

namespace Store

variable {s : Store V}

/-- If no chain is too short for it, a sweep is a thorough trimming. -/
theorem chain?_gc (hs : s.index.Valid) (hp : s.places.Orderly) (hlen : s.config.gcMinChainLen ≤ 2)
    (key : Key) : s.gc.1.chain? key = s.trimmed.chain? key := by
  have hsafe : s.gc.1.safepoint = s.safepoint := by
    have hsweeps := sweeps_gc hs hp
    simp [Store.safepoint, hsweeps.active, hsweeps.watermark]
  rw [← trimmed_gc hs, chain?_trimmed, hsafe]
  cases hc : s.gc.1.chain? key with
  | none => rfl
  | some c =>
    have hchain := chain_gc hs hp key
    rw [chain_eq_of_chain? hc, Chain.sweptBy_of_le_two hlen] at hchain
    simp [hchain]

end Store

namespace System

variable {sys sys' : System V} {i : Nat} {s s' : Store V}

/-! ### Configurations -/

/-- Every store keeps a configuration of those that it was opened with. -/
theorem config_mem {configs : List Config} {shared : Bool} {actions : List (Action V)}
    (hs : ((start configs shared).exec actions).stores[i]? = some s) : s.config ∈ configs := by
  have hages := (sound_start (V := V) configs shared).ages_exec actions i
  rw [hs] at hages
  generalize hstart : (start configs shared : System V).stores[i]? = first at hages
  cases hages with
  | some hage =>
    obtain ⟨config, hconfig, rfl⟩ := List.mem_map.1 (List.mem_of_getElem? hstart)
    rw [hage.config_eq]
    exact hconfig

/-! ### Runs that differ by sweeps -/

/-- Without the sweeps a run leads to a system that is like the one that it leads to with them. -/
theorem Alike.exec_filter (h : sys.Alike sys') (hr : sys.Reachable) (hr' : sys'.Reachable)
    {actions : List (Action V)} (hhonors : sys'.honorsAll (actions.filter (!·.isSweep)) = true) :
    (sys.exec actions).Alike (sys'.exec (actions.filter (!·.isSweep))) := by
  induction actions generalizing sys sys' with
  | nil => exact h
  | cons a actions ih =>
    cases hsweep : a.isSweep with
    | true =>
      rw [filter_cons_of_sweep hsweep] at hhonors ⊢
      exact ih (h.sweep hr hsweep) (hr.act a) hr' hhonors
    | false =>
      rw [filter_cons_of_other hsweep] at hhonors ⊢
      obtain ⟨ha, hrest⟩ := Bool.and_eq_true_iff.1 hhonors
      have hact := h.act hr hr' a hsweep ((h.honors_eq a).symm.trans ha)
      exact ih hact.alike (hr.act a) (hr'.act a) hrest

theorem alike_of_sweeps {configs configs' : List Config} (hlen : configs'.length = configs.length)
    (shared : Bool) {actions actions' : List (Action V)}
    (hsame : actions'.filter (!·.isSweep) = actions.filter (!·.isSweep))
    (hhonors : (start configs shared : System V).honorsAll actions = true) :
    ((start configs shared).exec actions).Alike ((start configs' shared).exec actions') := by
  have hr : ∀ cs : List Config, (start cs shared : System V).Reachable := fun cs =>
    ⟨cs, shared, [], rfl⟩
  have hplain := (Alike.refl _).honorsAll_filter (hr configs) (hr configs) hhonors
  have hfirst := (Alike.refl _).exec_filter (hr configs) (hr configs) hplain
  have hsecond := (alike_start hlen shared).symm.exec_filter (hr configs') (hr configs)
    (hsame ▸ hplain)
  rw [hsame] at hsecond
  exact hfirst.trans hsecond.symm

/-! ### After a sweep -/

/-- The chains after a sweep of a store none of whose chains is too short are what is left after a
thorough trimming. -/
theorem Reachable.chain?_gc (h : sys.Reachable)
    (hlen : ∀ s, sys.stores[i]? = some s → s.config.gcMinChainLen ≤ 2) :
    (sys.act (.gc i)).1.stores[i]?.map Store.chain? =
      (sys.stores[i]?.map Store.trimmed).map Store.chain? := by
  cases hs : sys.stores[i]? with
  | none => simp [System.act, onStore, hs]
  | some s =>
    have hlt : i < sys.stores.length := (List.getElem?_eq_some_iff.1 hs).1
    have hafter : (sys.act (.gc i)).1.stores[i]? = some s.gc.1 := by
      rw [act_gc hs]
      exact List.getElem?_set_self hlt
    rw [hafter]
    refine congrArg some (funext fun key => ?_)
    exact Store.chain?_gc (h.sound.stores i s hs).valid (h.orderly hs) (hlen s hs) key

/-- What a sweep leaves does not depend on when trimming happened before. Take two runs on as many
    stores, none of which finds a chain of two versions too short, in which the same actions are done in
    the same order, and any sweeps besides; commits may trim on their own or not. If no transaction is
    opened below the watermark of its store at that moment, then after one more sweep of a store every
    key has the same chain in both: the same versions with all that they say. -/
theorem chains_eq_after_sweep {configs configs' : List Config}
    (hlen : configs'.length = configs.length) (hshort : ∀ c ∈ configs, c.gcMinChainLen ≤ 2)
    (hshort' : ∀ c ∈ configs', c.gcMinChainLen ≤ 2) (shared : Bool)
    {actions actions' : List (Action V)}
    (hsame : actions'.filter (!·.isSweep) = actions.filter (!·.isSweep))
    (hhonors : (start configs shared : System V).honorsAll actions = true) (i : Nat) :
    ((start configs' shared).exec (actions' ++ [.gc i])).stores[i]?.map Store.chain? =
      ((start configs shared).exec (actions ++ [.gc i])).stores[i]?.map Store.chain? := by
  have halike := alike_of_sweeps hlen shared hsame hhonors
  have hr : ((start configs shared : System V).exec actions).Reachable :=
    ⟨configs, shared, actions, rfl⟩
  have hr' : ((start configs' shared : System V).exec actions').Reachable :=
    ⟨configs', shared, actions', rfl⟩
  have hlast := hr.chain?_gc (i := i) fun s hs => hshort _ (config_mem hs)
  have hlast' := hr'.chain?_gc (i := i) fun s hs => hshort' _ (config_mem hs)
  rw [exec_append, exec_append]
  exact hlast'.trans ((congrArg (Option.map Store.chain?) (halike.store i)).trans hlast.symm)

/-- One store trims what is written and is swept on the way, the other is not trimmed until the end. A
    write is pending then, and a version was read in between. -/
theorem chains_eq_after_sweep_amid_write :
    ((start [⟨true, 0⟩] false : System Nat).exec
        ([.openTxn 0 "w" 1 true, .set "w" [7] 5, .commit "w" 2, .openTxn 0 "w" 3 true,
          .set "w" [7] 6, .gc 0, .commit "w" 4, .advanceWatermark 0 6, .gc 0,
          .openTxn 0 "r" 6 false, .get "r" [7], .openTxn 0 "w" 7 true, .set "w" [7] 8] ++
          [.gc 0])).stores[0]?.map Store.chain? =
      ((start [.standard] false : System Nat).exec
        ([.openTxn 0 "w" 1 true, .set "w" [7] 5, .commit "w" 2, .openTxn 0 "w" 3 true,
          .set "w" [7] 6, .commit "w" 4, .advanceWatermark 0 6, .openTxn 0 "r" 6 false,
          .get "r" [7], .openTxn 0 "w" 7 true, .set "w" [7] 8] ++ [.gc 0])).stores[0]?.map
            Store.chain? := by
  refine chains_eq_after_sweep ?_ ?_ ?_ false ?_ ?_ 0
  · rfl
  · decide
  · decide
  · rfl
  · decide +kernel

end System

end RadixStore
