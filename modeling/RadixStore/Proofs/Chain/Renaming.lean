import Mathlib
import RadixStore.Proofs.Chain.Install
import RadixStore.Proofs.Chain.Stamp

/-!
# Chains under other identities

Of two identities a chain wants to know no more than whether they are the same. If every transaction
goes by another identity, and no two by the same, then a chain shows and refuses the same, and what is
left is the same chain with other identities in it.
-/

namespace RadixStore

variable {V : Type} {ρ : TxnId → TxnId}

/-! ### Stamps -/

/-- The readers under other identities. -/
def Readers.renamed (ρ : TxnId → TxnId) : Readers → Readers
  | .nobody => .nobody
  | .only reader => .only (ρ reader)
  | .several => .several

namespace ReadStamp

/-- The stamp with its readers under other identities. -/
def renamed (ρ : TxnId → TxnId) (s : ReadStamp) : ReadStamp :=
  ⟨s.ts, s.readers.renamed ρ⟩

theorem observe_renamed (hρ : ρ.Injective) (s : ReadStamp) (ts : Timestamp) (reader : TxnId) :
    (s.renamed ρ).observe ts (ρ reader) = (s.observe ts reader).renamed ρ := by
  obtain ⟨last, readers⟩ := s
  by_cases hlater : last < ts
  · simp [observe, renamed, Readers.renamed, hlater]
  · by_cases hsame : ts = last
    · cases readers with
      | nobody => simp [observe, renamed, Readers.renamed, hsame]
      | only other =>
        by_cases hreader : other = reader
        · simp [observe, renamed, Readers.renamed, hsame, hreader]
        · simp [observe, renamed, Readers.renamed, hsame, hreader, hρ.eq_iff]
      | several => simp [observe, renamed, Readers.renamed, hsame]
    · simp [observe, renamed, hlater, hsame]

theorem admits_renamed (hρ : ρ.Injective) (s : ReadStamp) (ts : Timestamp) (writer : TxnId) :
    (s.renamed ρ).admits ts (ρ writer) = s.admits ts writer := by
  have hnobody : s.readers.renamed ρ = .nobody ↔ s.readers = .nobody := by
    cases s.readers <;> simp [Readers.renamed]
  have honly : s.readers.renamed ρ = .only (ρ writer) ↔ s.readers = .only writer := by
    cases s.readers <;> simp [Readers.renamed, hρ.eq_iff]
  rw [Bool.eq_iff_iff, admits_iff, admits_iff]
  simp only [renamed, hnobody, honly]

end ReadStamp

/-! ### Versions -/

namespace Version

/-- The version held and read by the same transactions under other identities. -/
def renamed (ρ : TxnId → TxnId) (v : Version V) : Version V :=
  { v with
    holder := v.holder.map ρ
    stamp := v.stamp.renamed ρ }

@[simp] theorem isSettledBy_renamed (v : Version V) (ts : Timestamp) :
    (v.renamed ρ).isSettledBy ts = v.isSettledBy ts := rfl

theorem isHeldAgainst_renamed (hρ : ρ.Injective) (v : Version V) (txn : TxnId) :
    (v.renamed ρ).isHeldAgainst (ρ txn) = v.isHeldAgainst txn := by
  unfold isHeldAgainst
  dsimp only [renamed]
  cases v.holder with
  | none => rfl
  | some holder => simp [hρ.eq_iff]

theorem commitVersion_renamed (i : Installed) (ts : Timestamp) (v : Version V) :
    Chain.commitVersion i ts (v.renamed ρ) = (Chain.commitVersion i ts v).renamed ρ := by
  by_cases hnode : v.serial = i.node
  · simp [Chain.commitVersion, renamed, hnode]
  · by_cases hprior : some v.serial = i.prior
    · simp [Chain.commitVersion, renamed, hnode, hprior]
    · simp [Chain.commitVersion, renamed, hnode, hprior]

theorem abortVersion_renamed (i : Installed) (v : Version V) :
    Chain.abortVersion i (v.renamed ρ) = (Chain.abortVersion i v).renamed ρ := by
  by_cases hprior : some v.serial = i.prior
  · simp [Chain.abortVersion, renamed, release, hprior]
  · simp [Chain.abortVersion, renamed, hprior]

end Version

/-! ### Chains -/

namespace Chain

/-- The chain with all identities exchanged. -/
def renamed (ρ : TxnId → TxnId) (c : Chain V) : Chain V :=
  { c with versions := c.versions.map (Version.renamed ρ) }

@[simp] theorem renamed_empty : (empty : Chain V).renamed ρ = empty := rfl

@[simp] theorem length_renamed (c : Chain V) : (c.renamed ρ).length = c.length :=
  List.length_map _

/-! ### Reading -/

theorem sightOf_renamed (hρ : ρ.Injective) (v : Version V) (ts : Timestamp) (reader : TxnId) :
    sightOf (v.renamed ρ) ts (ρ reader) = sightOf v ts reader := by
  unfold sightOf
  rw [Version.isHeldAgainst_renamed hρ]
  rfl

theorem lookIn_renamed (hρ : ρ.Injective) (ts : Timestamp) (reader : TxnId)
    (versions : List (Version V)) :
    lookIn ts (ρ reader) (versions.map (Version.renamed ρ)) =
      ((lookIn ts reader versions).1, (lookIn ts reader versions).2.map (Version.renamed ρ)) := by
  induction versions with
  | nil => rfl
  | cons v older ih =>
    rw [List.map_cons, lookIn, lookIn, Version.isSettledBy_renamed]
    split
    · have hstamp : (v.renamed ρ).stamp.observe ts (ρ reader) = _ :=
        ReadStamp.observe_renamed hρ v.stamp ts reader
      rw [sightOf_renamed hρ, hstamp]
      rfl
    · rw [ih]
      rfl

theorem look_renamed (hρ : ρ.Injective) (c : Chain V) (ts : Timestamp) (reader : TxnId) :
    (c.renamed ρ).look ts (ρ reader) = ((c.look ts reader).1, (c.look ts reader).2.renamed ρ) := by
  simp only [look, renamed, lookIn_renamed hρ]

/-! ### Writing -/

theorem install_renamed (hρ : ρ.Injective) (c : Chain V) (txn : TxnId) (readTs : Timestamp)
    (value : V) : (c.renamed ρ).install (ρ txn) readTs value =
      (c.install txn readTs value).map fun r => (r.1.renamed ρ, r.2) := by
  obtain ⟨versions, next⟩ := c
  cases versions with
  | nil => rfl
  | cons head older =>
    have hheld : (head.holder.map ρ).isSome = head.holder.isSome := Option.isSome_map
    simp only [install_eq, renamed, List.map_cons, Version.renamed, hheld,
      ReadStamp.admits_renamed hρ]
    split
    · rfl
    · split <;> rfl

theorem since_renamed (c : Chain V) (serial : Option Serial) :
    (c.renamed ρ).since serial = (c.since serial).map (Version.renamed ρ) := by
  cases serial with
  | none => rfl
  | some serial => exact List.dropWhile_map

theorem supersede_renamed (c : Chain V) (i : Installed) (value : V) :
    (c.renamed ρ).supersede i value =
      (c.supersede i value).map fun r => (r.1.renamed ρ, r.2) := by
  have hsince : (c.renamed ρ).since i.prior = _ := c.since_renamed i.prior
  obtain ⟨versions, next⟩ := c
  cases versions with
  | nil => rfl
  | cons head older =>
    unfold supersede
    rw [hsince]
    simp only [renamed, List.map_cons, Version.renamed]
    split <;> rfl

theorem commit_renamed (c : Chain V) (i : Installed) (ts : Timestamp) :
    (c.renamed ρ).commit i ts = (c.commit i ts).renamed ρ := by
  simp [commit, renamed, Function.comp_def, Version.commitVersion_renamed]

theorem abort?_renamed (c : Chain V) (i : Installed) :
    (c.renamed ρ).abort? i = (c.abort? i).map (renamed ρ) := by
  have hnewest : (c.renamed ρ).isNewest i.node = c.isNewest i.node := by
    obtain ⟨versions, next⟩ := c
    cases versions <;> rfl
  unfold abort?
  rw [hnewest, since_renamed]
  split
  · simp [renamed, Function.comp_def, Version.abortVersion_renamed]
  · rfl

theorem abort_renamed (c : Chain V) (i : Installed) :
    (c.renamed ρ).abort i = (c.abort i).renamed ρ := by
  unfold abort
  rw [abort?_renamed]
  cases c.abort? i <;> rfl

/-! ### Trimming -/

theorem cutIn_renamed (safepoint : Timestamp) (versions : List (Version V)) :
    cutIn safepoint (versions.map (Version.renamed ρ)) =
      ((cutIn safepoint versions).1.map (Version.renamed ρ), (cutIn safepoint versions).2) := by
  induction versions with
  | nil => rfl
  | cons v older ih =>
    rw [List.map_cons, cutIn, cutIn, Version.isSettledBy_renamed]
    split
    · simp
    · rw [ih]
      rfl

theorem trim_renamed (c : Chain V) (safepoint : Timestamp) :
    (c.renamed ρ).trim safepoint = ((c.trim safepoint).1.renamed ρ, (c.trim safepoint).2) := by
  simp only [trim, renamed, cutIn_renamed]

end Chain

end RadixStore
