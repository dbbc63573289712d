import Mathlib
import RadixStore.Proofs.Store.Effects

/-!
# Keeping a record of a run

Somebody who sees the actions of a run and what they are answered, and nothing else, can keep a record
of the transactions that are open: on which store, at which timestamp, and which keys they have
written with effect. The record also counts the keys that were committed. It agrees with what is open
in the system after every run.
-/

namespace RadixStore

variable {V : Type}

/-! ### The record -/

/-- What is on record of a transaction that is open. -/
structure Account where
  store : Nat
  readTs : Timestamp
  /-- The keys that it has written with effect. -/
  written : Finset Key

/-- A record of a run. -/
structure Ledger where
  /-- The transactions that were opened and have not ended. -/
  accounts : Bindings String Account
  /-- Of each transaction that was committed with effect the number of keys that it had written, summed
      up. -/
  committed : Nat

namespace Ledger

/-- Nothing has happened. -/
def blank : Ledger :=
  ⟨[], 0⟩

/-- A transaction ends. -/
def close (L : Ledger) (name : String) : Ledger :=
  { L with accounts := L.accounts.unbind name }

/-- Put on record an action and what it was answered. A transaction ends when it is discarded, when it
    is committed, even if that is refused, and when its name is taken by another one. -/
def record (L : Ledger) : Action V → Answer V → Ledger
  | .openTxn i name readTs _, .opened _ _ _ _ =>
    { L with accounts := L.accounts.bind name ⟨i, readTs, ∅⟩ }
  | .openTxn _ name _ _, _ => L.close name
  | .set name key _, .wrote (.ok ()) _ =>
    match L.accounts.find name with
    | none => L
    | some e => { L with accounts := L.accounts.bind name { e with written := insert key e.written } }
  | .commit name _, .verdict (.ok ()) =>
    { L.close name with
      committed := L.committed + (L.accounts.find name).elim 0 fun e => e.written.card }
  | .commit name _, _ | .discard name, _ => L.close name
  | _, _ => L

/-- The record of actions with their answers. -/
def recordAll (L : Ledger) (events : List (Action V × Answer V)) : Ledger :=
  events.foldl (fun L e => L.record e.1 e.2) L

/-- The timestamps at which the transactions read that are open on store `i`. -/
def readTimes (L : Ledger) (i : Nat) : Multiset Timestamp :=
  ((L.accounts.filter fun e => e.2.store = i).map fun e => e.2.readTs : List Timestamp)

theorem mem_readTimes_iff {L : Ledger} {i : Nat} {ts : Timestamp} :
    ts ∈ L.readTimes i ↔ ∃ b ∈ L.accounts, b.2.store = i ∧ b.2.readTs = ts := by
  simp [readTimes, and_assoc]

/-- Who reads at `ts` on store `i` has done so before, or is opened there. -/
theorem mem_readTimes_record {L : Ledger} {a : Action V} {answer : Answer V} {i : Nat}
    {ts : Timestamp} (h : ts ∈ (L.record a answer).readTimes i) :
    ts ∈ L.readTimes i ∨ ∃ name update, a = .openTxn i name ts update := by
  have hclose : ∀ name, ts ∈ (L.close name).readTimes i → ts ∈ L.readTimes i := by
    intro name hts
    obtain ⟨b, hb, hread⟩ := mem_readTimes_iff.1 hts
    exact mem_readTimes_iff.2 ⟨b, (List.mem_filter.1 hb).1, hread⟩
  have hbind : ∀ name (x : Account), ts ∈ ({ L with accounts := L.accounts.bind name x } :
      Ledger).readTimes i → x.store = i ∧ x.readTs = ts ∨ ts ∈ L.readTimes i := by
    intro name x hts
    obtain ⟨b, hb, hread⟩ := mem_readTimes_iff.1 hts
    rcases List.mem_cons.1 hb with rfl | hb
    · exact Or.inl hread
    · exact Or.inr (hclose name (mem_readTimes_iff.2 ⟨b, hb, hread⟩))
  unfold record at h
  split at h
  · rcases hbind _ _ h with ⟨rfl, rfl⟩ | hold
    · exact Or.inr ⟨_, _, rfl⟩
    · exact Or.inl hold
  · exact Or.inl (hclose _ h)
  · split at h
    · exact Or.inl h
    · rename_i name key value _ _ e hfind
      rcases hbind _ _ h with hread | hold
      · obtain ⟨b, hb, rfl⟩ := Option.map_eq_some_iff.1 hfind
        exact Or.inl (mem_readTimes_iff.2 ⟨b, List.mem_of_find?_eq_some hb, hread⟩)
      · exact Or.inl hold
  · exact Or.inl (hclose _ h)
  · exact Or.inl (hclose _ h)
  · exact Or.inl (hclose _ h)
  · exact Or.inl h

end Ledger

/-- What is to be on record of an open transaction. -/
def OpenTxn.account (o : OpenTxn V) : Account :=
  ⟨o.store, o.txn.readTs, (o.txn.writes.map Prod.fst).toFinset⟩

/-- The keys of a transaction with one more write staged. -/
theorem Txn.toFinset_stage (t : Txn V) (key : Key) (p : Pending V) :
    ((t.stage key p).writes.map Prod.fst).toFinset =
      insert key (t.writes.map Prod.fst).toFinset := by
  ext k
  by_cases hk : k = key <;> simp [stage, hk]

theorem OpenTxn.account_stage (i : Nat) (t : Txn V) (key : Key) (p : Pending V) :
    (⟨i, t.stage key p⟩ : OpenTxn V).account =
      { (⟨i, t⟩ : OpenTxn V).account with
        written := insert key (⟨i, t⟩ : OpenTxn V).account.written } := by
  unfold account
  rw [Txn.toFinset_stage]
  rfl

namespace System

/-- The record of a run. -/
def ledger (sys : System V) (run : List (Action V)) : Ledger :=
  Ledger.blank.recordAll (run.zip (sys.answers run))

end System

namespace Ledger

/-- The record says of every transaction in the system what is to be said of it, and names no others. -/
structure Agrees (L : Ledger) (sys : System V) : Prop where
  names : (L.accounts.map Prod.fst).Nodup
  find : ∀ name, L.accounts.find name = (sys.txns.find name).map OpenTxn.account

variable {L : Ledger} {sys after : System V} {a : Action V} {answer : Answer V} {name : String}
  {i : Nat}

theorem agrees_start (configs : List Config) (shared : Bool) :
    blank.Agrees (System.start configs shared : System V) :=
  ⟨List.nodup_nil, fun _ => rfl⟩

theorem Agrees.congr (h : L.Agrees sys) (htxns : after.txns = sys.txns) : L.Agrees after :=
  ⟨h.names, fun name => htxns ▸ h.find name⟩

theorem Agrees.close (h : L.Agrees sys) (htxns : after.txns = sys.txns.unbind name) :
    (L.close name).Agrees after := by
  refine ⟨Bindings.nodup_unbind h.names, ?_⟩
  intro other
  show (L.accounts.unbind name).find other = _
  rw [htxns, Bindings.find_unbind, Bindings.find_unbind, h.find]
  split <;> rfl

theorem Agrees.close_of_free (h : L.Agrees sys) (hfree : sys.txns.find name = none)
    (htxns : after.txns = sys.txns) : (L.close name).Agrees after :=
  h.close (htxns.trans (Bindings.unbind_of_find_none hfree).symm)

theorem Agrees.bind (h : L.Agrees sys) {o : OpenTxn V} (htxns : after.txns = sys.txns.bind name o) :
    ({ L with accounts := L.accounts.bind name o.account } : Ledger).Agrees after := by
  refine ⟨Bindings.nodup_bind h.names _, ?_⟩
  intro other
  show (L.accounts.bind name o.account).find other = _
  rw [htxns, Bindings.find_bind, Bindings.find_bind, h.find]
  split <;> rfl

/-- To end a transaction before its name is taken makes no difference. -/
theorem record_openTxn_close (L : Ledger) (i : Nat) (name : String) (readTs : Timestamp)
    (update : Bool) (answer : Answer V) :
    (L.close name).record (.openTxn i name readTs update) answer =
      L.record (.openTxn i name readTs update) answer := by
  cases answer <;> simp [record, close, Bindings.bind]

/-- A record that agrees still does after the next action. -/
theorem Agrees.effect (h : L.Agrees sys) (hsound : sys.Sound) (heffect : sys.Effect a answer after) :
    (L.record a answer).Agrees after := by
  induction heffect generalizing L with
  | @idle sys after a answer _ htxns _ hsubject =>
    cases a with
    | openTxn i name readTs update =>
      obtain ⟨hfree, rfl⟩ := hsubject name rfl
      exact h.close_of_free hfree htxns
    | set name key value =>
      obtain ⟨-, rfl⟩ := hsubject name rfl
      exact h.congr htxns
    | commit name ts =>
      obtain ⟨hfree, rfl⟩ := hsubject name rfl
      exact h.close_of_free hfree htxns
    | discard name => exact h.close_of_free (hsubject name rfl).1 htxns
    | _ => exact h.congr htxns
  | get _ _ => exact h.congr rfl
  | @set sys name i t s key value hfind hs =>
    have hbind : ({ L with
        accounts := L.accounts.bind name (OpenTxn.account ⟨i, (s.set t key value).txn⟩) } :
          Ledger).Agrees { sys.setStore i (s.set t key value).store with
            txns := sys.txns.bind name ⟨i, (s.set t key value).txn⟩ } := h.bind rfl
    have hfound := h.find name
    rw [hfind, Option.map_some] at hfound
    obtain ⟨-, ⟨e, herror, htxn, -⟩ | ⟨c, j, hok, -, -, htxn, -⟩ | ⟨p, c, j, hok, -, -, htxn, -⟩⟩ :=
      Store.set_cases (hsound.stores i s hs).valid t key value
    · rw [herror]
      refine ⟨h.names, fun other => ?_⟩
      show L.accounts.find other = ((sys.txns.bind name _).find other).map _
      rw [htxn, Bindings.find_bind_of_find hfind, h.find]
    all_goals
      rw [htxn, OpenTxn.account_stage] at hbind
      rw [hok, htxn]
      unfold record
      dsimp only
      rw [hfound]
      exact hbind
  | @commit sys name i t s ts hfind hs =>
    have hclose : (L.close name).Agrees { sys.setStore i (s.commit t ts).store with
      txns := sys.txns.unbind name
      reclaimed := sys.reclaimed + (s.commit t ts).reclaimed } := h.close rfl
    cases (s.commit t ts).verdict with
    | ok u => exact ⟨hclose.names, hclose.find⟩
    | error e => exact hclose
  | discard _ _ => exact h.close rfl
  | scan _ _ _ => exact h.congr rfl
  | sweep _ => exact h.congr rfl
  | advance _ => exact h.congr rfl
  | @opened sys taken i name readTs update id s _ _ htxns _ _ =>
    exact (h.congr htxns).bind (o := ⟨i, ⟨id, readTs, update, []⟩⟩) rfl
  | @reopened sys after i name readTs update answer hused _ ih =>
    obtain ⟨⟨j, t⟩, hfind⟩ := Option.isSome_iff_exists.1 hused
    obtain ⟨s, hs⟩ := hsound.exists_store hfind
    have hdiscard : (sys.act (.discard name)).1.txns = sys.txns.unbind name := by
      rw [System.act_discard hfind hs]
    have hagain := ih (h.close hdiscard) (hsound.act _).sound
    rwa [record_openTxn_close] at hagain

/-- A record that agrees still does after a run. -/
theorem Agrees.exec (h : L.Agrees sys) (hsound : sys.Sound) (run : List (Action V)) :
    (L.recordAll (run.zip (sys.answers run))).Agrees (sys.exec run) := by
  induction run generalizing L sys with
  | nil => exact h
  | cons a run ih => exact ih (h.effect hsound (hsound.effect a)) (hsound.act a).sound

theorem agrees_ledger (configs : List Config) (shared : Bool) (run : List (Action V)) :
    ((System.start configs shared).ledger run).Agrees ((System.start configs shared).exec run) :=
  (agrees_start configs shared).exec (System.sound_start configs shared) run

/-- The record lists the open transactions, in whichever order. -/
theorem Agrees.perm (h : L.Agrees sys) (hsound : sys.Sound) :
    L.accounts.Perm (sys.txns.map fun b => (b.1, b.2.account)) := by
  refine Bindings.perm_of_find_eq h.names ?_ fun name => ?_
  · rw [List.map_map]
    exact hsound.names
  · rw [h.find, Bindings.find_map]

/-- The timestamps on record are those of the open transactions. -/
theorem Agrees.readTimes_eq (h : L.Agrees sys) (hsound : sys.Sound) (i : Nat) :
    L.readTimes i = (openOn sys.txns i).map Txn.readTs := by
  have hperm := ((h.perm hsound).filter fun e => e.2.store = i).map fun e => e.2.readTs
  unfold readTimes openOn
  rw [Multiset.coe_eq_coe.2 hperm, List.filter_map, List.map_map, Multiset.map_coe, List.map_map]
  rfl

end Ledger

end RadixStore
