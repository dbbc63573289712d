import Mathlib
import RadixStore.Proofs.Chain.Stamp

/-!
# Any number of reads

Of all the reads that are recorded on it a stamp keeps one timestamp and at most one reader. For
admission nothing is lost by that: a writer is admitted exactly when it gets past every read. Nor does
it matter in which order the reads came, or how often.

In memory a stamp is two words. The second one is the reader, or one of two words that no transaction
has for its identity: 0 when nobody has read there, and the largest word when several have.
-/

namespace RadixStore

/-- A read of a version: when, and by whom. -/
structure Read where
  ts : Timestamp
  reader : TxnId
deriving DecidableEq, Repr

namespace ReadStamp

variable {s : ReadStamp} {reads more : List Read} {ts : Timestamp} {writer : TxnId} {r : Read}

/-- The stamp after these reads, one after the other. -/
def observeAll (s : ReadStamp) (reads : List Read) : ReadStamp :=
  reads.foldl (fun s r => s.observe r.ts r.reader) s

theorem observeAll_append (s : ReadStamp) (reads more : List Read) :
    s.observeAll (reads ++ more) = (s.observeAll reads).observeAll more :=
  List.foldl_append

/-- Nothing but the reads stands against a writer, and each of them does. -/
theorem admits_observeAll_iff : (s.observeAll reads).admits ts writer = true ↔
    s.admits ts writer = true ∧ ∀ r ∈ reads, r.ts < ts ∨ r.ts = ts ∧ r.reader = writer := by
  induction reads generalizing s with
  | nil => simp [observeAll]
  | cons r reads ih =>
    have hstep : (s.observeAll (r :: reads)) = (s.observe r.ts r.reader).observeAll reads := rfl
    rw [hstep, ih, admits_observe_iff, List.forall_mem_cons, and_assoc, eq_comm (a := writer)]

/-! ### Order and repetition -/

/-- Of two reads either one may come first. -/
theorem observe_comm (s : ReadStamp) (q r : Read) :
    (s.observe q.ts q.reader).observe r.ts r.reader =
      (s.observe r.ts r.reader).observe q.ts q.reader := by
  obtain ⟨high, readers⟩ := s
  rcases lt_trichotomy q.ts r.ts with hlt | heq | hgt
  · cases readers <;> simp only [observe] <;> grind
  · cases readers <;> simp only [observe, heq] <;> grind
  · cases readers <;> simp only [observe] <;> grind

/-- A read that has just been recorded is not recorded twice. -/
theorem observe_observe_self (s : ReadStamp) (r : Read) :
    (s.observe r.ts r.reader).observe r.ts r.reader = s.observe r.ts r.reader := by
  obtain ⟨high, readers⟩ := s
  cases readers <;> simp only [observe] <;> grind

theorem observeAll_perm (h : reads.Perm more) : s.observeAll reads = s.observeAll more :=
  h.foldl_eq' (fun q _ r _ s => observe_comm s q r) s

theorem observe_of_mem (h : r ∈ reads) :
    (s.observeAll reads).observe r.ts r.reader = s.observeAll reads := by
  obtain ⟨front, rest, rfl⟩ := List.append_of_mem h
  have hperm : (front ++ r :: rest).Perm (front ++ rest ++ [r]) := by
    rw [List.append_assoc]
    exact (List.perm_append_singleton r rest).symm.append_left front
  have hlast : s.observeAll (front ++ rest ++ [r]) =
      (s.observeAll (front ++ rest)).observe r.ts r.reader := observeAll_append _ _ _
  rw [observeAll_perm hperm, hlast, observe_observe_self]

theorem observeAll_of_subset (h : ∀ r ∈ more, r ∈ reads) :
    (s.observeAll reads).observeAll more = s.observeAll reads := by
  induction more with
  | nil => rfl
  | cons r more ih =>
    have hfirst := observe_of_mem (s := s) (h r (by simp))
    show ((s.observeAll reads).observe r.ts r.reader).observeAll more = _
    rw [hfirst]
    exact ih fun q hq => h q (by simp [hq])

/-- The stamp depends on what was read when by whom, and on nothing else. -/
theorem observeAll_congr (h : ∀ r, r ∈ more ↔ r ∈ reads) :
    s.observeAll more = s.observeAll reads := by
  have hmore := observeAll_of_subset (s := s) fun r hr => (h r).2 hr
  have hreads := observeAll_of_subset (s := s) fun r hr => (h r).1 hr
  rw [← hmore, ← hreads, ← observeAll_append, ← observeAll_append]
  exact observeAll_perm List.perm_append_comm

end ReadStamp

/-! ### Stamps in memory -/

/-- The identities that are handed out: neither 0 nor the largest word. -/
def IsIdentity (word : UInt64) : Prop :=
  0 < word ∧ word < 18446744073709551615

/-- A read as it is given in two words. -/
abbrev ReadWords := UInt64 × UInt64

def ReadWords.read (r : ReadWords) : Read :=
  ⟨r.1.toNat, r.2.toNat⟩

/-- A stamp as it stands in memory. -/
structure StampWords where
  ts : UInt64
  reader : UInt64
deriving DecidableEq, Repr

namespace StampWords

/-- The word for the reader of a version that nobody has read. -/
def noReader : UInt64 := 0

/-- The word for the reader of a version that several transactions have read at the timestamp. -/
def sharedReaders : UInt64 := 18446744073709551615

def fresh : StampWords := ⟨0, noReader⟩

/-- Record a read. Whoever reads at the timestamp of the stamp shares it with the reader there. -/
def observe (s : StampWords) (ts reader : UInt64) : StampWords :=
  if s.ts < ts then ⟨ts, reader⟩
  else if ts = s.ts ∧ s.reader ≠ reader then
    ⟨s.ts, if s.reader = noReader then reader else sharedReaders⟩
  else s

def admits (s : StampWords) (ts writer : UInt64) : Bool :=
  s.ts < ts || (s.ts = ts && (s.reader = noReader || s.reader = writer))

def observeAll (s : StampWords) (reads : List ReadWords) : StampWords :=
  reads.foldl (fun s r => s.observe r.1 r.2) s

/-- Who has read at the timestamp, by the word for it. -/
def readers (word : UInt64) : Readers :=
  if word = noReader then .nobody
  else if word = sharedReaders then .several
  else .only word.toNat

/-- The word for who has read. -/
def wordOf : Readers → UInt64
  | .nobody => noReader
  | .only reader => UInt64.ofNat reader
  | .several => sharedReaders

/-- The stamp that two words stand for. -/
def stamp (s : StampWords) : ReadStamp :=
  ⟨s.ts.toNat, readers s.reader⟩

variable {s : StampWords} {ts reader writer word : UInt64} {reads more : List ReadWords}

theorem isIdentity_iff : IsIdentity word ↔ word ≠ noReader ∧ word ≠ sharedReaders := by
  have hword := word.toNat_lt
  simp only [IsIdentity, noReader, sharedReaders, UInt64.lt_iff_toNat_lt, ne_eq,
    ← UInt64.toNat_inj, UInt64.toNat_ofNat]
  omega

/-- A word is one of the two that nobody has, or the identity of the only reader. -/
theorem readers_cases (word : UInt64) :
    word = noReader ∧ readers word = .nobody ∨
      word = sharedReaders ∧ readers word = .several ∨
      IsIdentity word ∧ readers word = .only word.toNat := by
  by_cases hnone : word = noReader
  · exact Or.inl ⟨hnone, by rw [readers, if_pos hnone]⟩
  by_cases hshared : word = sharedReaders
  · exact Or.inr (Or.inl ⟨hshared, by rw [readers, if_neg hnone, if_pos hshared]⟩)
  · refine Or.inr (Or.inr ⟨isIdentity_iff.2 ⟨hnone, hshared⟩, ?_⟩)
    rw [readers, if_neg hnone, if_neg hshared]

theorem readers_of_isIdentity (h : IsIdentity word) : readers word = .only word.toNat := by
  obtain ⟨hnone, hshared⟩ := isIdentity_iff.1 h
  rw [readers, if_neg hnone, if_neg hshared]

theorem readers_injective : Function.Injective readers := by
  refine Function.LeftInverse.injective (g := wordOf) fun w => ?_
  rcases readers_cases w with ⟨rfl, hw⟩ | ⟨rfl, hw⟩ | ⟨-, hw⟩
  · rw [hw, wordOf]
  · rw [hw, wordOf]
  · rw [hw, wordOf, UInt64.ofNat_toNat]

theorem readers_eq_nobody_iff : readers word = .nobody ↔ word = noReader :=
  readers_injective.eq_iff' rfl

theorem readers_eq_only_iff (h : IsIdentity reader) :
    readers word = .only reader.toNat ↔ word = reader := by
  rw [← readers_of_isIdentity h, readers_injective.eq_iff]

theorem stamp_injective : Function.Injective stamp := by
  rintro ⟨ts, reader⟩ ⟨ts', reader'⟩ h
  obtain ⟨hts, hreaders⟩ := ReadStamp.mk.inj h
  have hts : ts = ts' := UInt64.toNat_inj.1 hts
  have hreaders : reader = reader' := readers_injective hreaders
  rw [hts, hreaders]

/-- The words are changed as the stamp is that they stand for. -/
theorem stamp_observe (h : IsIdentity reader) :
    (s.observe ts reader).stamp = s.stamp.observe ts.toNat reader.toNat := by
  obtain ⟨high, last⟩ := s
  have hlt : high < ts ↔ high.toNat < ts.toNat := UInt64.lt_iff_toNat_lt
  have heq : ts = high ↔ ts.toNat = high.toNat := UInt64.toNat_inj.symm
  have honly := readers_of_isIdentity h
  obtain ⟨hnone, hshared⟩ := isIdentity_iff.1 h
  by_cases hlater : high < ts
  · simp [observe, ReadStamp.observe, stamp, hlater, ← hlt, honly]
  by_cases hsame : ts = high
  · subst hsame
    rcases readers_cases last with ⟨rfl, hlast⟩ | ⟨rfl, hlast⟩ | ⟨hid, hlast⟩
    · simp [observe, ReadStamp.observe, stamp, hlast, honly, hnone.symm]
    · have hkept : sharedReaders ≠ noReader := by decide
      simp [observe, ReadStamp.observe, stamp, hlast, hshared.symm, hkept]
    · by_cases hsame : last = reader
      · subst hsame
        simp [observe, ReadStamp.observe, stamp, hlast]
      · have hother : last.toNat ≠ reader.toNat := fun heq => hsame (UInt64.toNat_inj.1 heq)
        have hkept := (isIdentity_iff.1 hid).1
        have hseveral : readers sharedReaders = .several := rfl
        simp [observe, ReadStamp.observe, stamp, hlast, hsame, hother, hkept, hseveral]
  · simp [observe, ReadStamp.observe, stamp, hlater, hsame, ← hlt, ← heq]

/-- The words admit whom the stamp admits that they stand for. -/
theorem admits_eq (h : IsIdentity writer) :
    s.admits ts writer = s.stamp.admits ts.toNat writer.toNat := by
  have hlt : s.ts < ts ↔ s.ts.toNat < ts.toNat := UInt64.lt_iff_toNat_lt
  have heq : s.ts = ts ↔ s.ts.toNat = ts.toNat := UInt64.toNat_inj.symm
  rw [Bool.eq_iff_iff, ReadStamp.admits_iff]
  simp only [admits, stamp, readers_eq_nobody_iff, readers_eq_only_iff h, Bool.or_eq_true,
    Bool.and_eq_true, decide_eq_true_iff, hlt, heq]

theorem stamp_observeAll (h : ∀ r ∈ reads, IsIdentity r.2) :
    (s.observeAll reads).stamp = s.stamp.observeAll (reads.map ReadWords.read) := by
  induction reads generalizing s with
  | nil => rfl
  | cons r reads ih =>
    obtain ⟨hr, hreads⟩ := List.forall_mem_cons.1 h
    have hstep : (s.observeAll (r :: reads)) = (s.observe r.1 r.2).observeAll reads := rfl
    rw [hstep, ih hreads, stamp_observe hr]
    rfl

theorem admits_observeAll_iff (hreads : ∀ r ∈ reads, IsIdentity r.2) (hwriter : IsIdentity writer) :
    (s.observeAll reads).admits ts writer = true ↔
      s.admits ts writer = true ∧ ∀ r ∈ reads, r.1 < ts ∨ r.1 = ts ∧ r.2 = writer := by
  have hread (r : ReadWords) : r.1 < ts ∨ r.1 = ts ∧ r.2 = writer ↔
      r.read.ts < ts.toNat ∨ r.read.ts = ts.toNat ∧ r.read.reader = writer.toNat := by
    simp only [ReadWords.read, UInt64.lt_iff_toNat_lt, UInt64.toNat_inj]
  rw [admits_eq hwriter, admits_eq hwriter, stamp_observeAll hreads,
    ReadStamp.admits_observeAll_iff, List.forall_mem_map]
  simp only [hread]

theorem observeAll_congr (hreads : ∀ r ∈ reads, IsIdentity r.2) (h : ∀ r, r ∈ more ↔ r ∈ reads) :
    s.observeAll more = s.observeAll reads := by
  have hmore : ∀ r ∈ more, IsIdentity r.2 := fun r hr => hreads r ((h r).1 hr)
  apply stamp_injective
  rw [stamp_observeAll hmore, stamp_observeAll hreads]
  refine ReadStamp.observeAll_congr fun r => ?_
  simp only [List.mem_map, h]

/-- After any reads the two words of a stamp that was fresh stand for the stamp after these reads,
and a writer is admitted exactly if every one of them was earlier, or was its own and at its
timestamp. The words do not depend on the order of the reads or on how often each occurs, and further
reads never admit a writer. -/
theorem admission_after_reads (hreads : ∀ r ∈ reads, IsIdentity r.2) (hwriter : IsIdentity writer)
    (ts : UInt64) :
    (fresh.observeAll reads).stamp = ReadStamp.fresh.observeAll (reads.map ReadWords.read) ∧
    (fresh.observeAll reads).admits ts writer =
      (ReadStamp.fresh.observeAll (reads.map ReadWords.read)).admits ts.toNat writer.toNat ∧
    ((fresh.observeAll reads).admits ts writer = true ↔
      ∀ r ∈ reads, r.1 < ts ∨ r.1 = ts ∧ r.2 = writer) ∧
    (∀ more : List ReadWords, (∀ r, r ∈ more ↔ r ∈ reads) →
      fresh.observeAll more = fresh.observeAll reads) ∧
    (∀ r ∈ reads, (fresh.observeAll reads).observe r.1 r.2 = fresh.observeAll reads) ∧
    (∀ more : List ReadWords, (∀ r ∈ more, IsIdentity r.2) →
      (fresh.observeAll (reads ++ more)).admits ts writer = true →
      (fresh.observeAll reads).admits ts writer = true) := by
  have hfresh : fresh.admits ts writer = true := by
    rw [admits_eq hwriter]
    exact ReadStamp.admits_fresh ts.toNat writer.toNat
  have hstamp : (fresh.observeAll reads).stamp = _ := stamp_observeAll hreads
  have hadmits : (fresh.observeAll reads).admits ts writer = true ↔ fresh.admits ts writer = true ∧
      ∀ r ∈ reads, r.1 < ts ∨ r.1 = ts ∧ r.2 = writer := admits_observeAll_iff hreads hwriter
  refine ⟨hstamp, by rw [admits_eq hwriter, hstamp]; rfl, by simpa [hfresh] using hadmits,
    fun more h => observeAll_congr hreads h, fun r hr => ?_, fun more hmore h => ?_⟩
  · have hagain : fresh.observeAll (reads ++ [r]) = fresh.observeAll reads :=
      observeAll_congr hreads fun q => by
        rw [List.mem_append, List.mem_singleton]
        exact ⟨fun hq => hq.elim id (· ▸ hr), Or.inl⟩
    have hlast : fresh.observeAll (reads ++ [r]) = (fresh.observeAll reads).observe r.1 r.2 :=
      List.foldl_append
    rw [← hlast, hagain]
  · have hall : ∀ r ∈ reads ++ more, IsIdentity r.2 := List.forall_mem_append.2 ⟨hreads, hmore⟩
    have hboth := ((admits_observeAll_iff hall hwriter).1 h).2
    exact hadmits.2 ⟨hfresh, fun r hr => hboth r (List.mem_append_left more hr)⟩

/-- Two read at the timestamp that the fresh stamp has already, a third reads later, and a fourth
earlier than the third: at the timestamp of the third only the third is admitted, and the reads may
as well have come in another order. -/
theorem admission_after_late_read :
    let reads : List ReadWords := [(0, 1), (0, 2), (7, 3), (5, 4), (7, 3)]
    (∀ r ∈ reads, IsIdentity r.2) ∧ IsIdentity 3 ∧ IsIdentity 4 ∧
      (fresh.observeAll reads).admits 7 3 = true ∧ (fresh.observeAll reads).admits 7 4 = false ∧
      fresh.observeAll [(7, 3), (5, 4), (0, 2), (0, 1)] = fresh.observeAll reads := by
  intro reads
  have hreads : ∀ r ∈ reads, IsIdentity r.2 := by simp [reads, IsIdentity]
  have hthird : IsIdentity 3 := by simp [IsIdentity]
  have hfourth : IsIdentity 4 := by simp [IsIdentity]
  obtain ⟨-, -, hown, hcongr, -⟩ := admission_after_reads hreads hthird 7
  obtain ⟨-, -, hother, -⟩ := admission_after_reads hreads hfourth 7
  have hsame : ∀ r, r ∈ [(7, 3), (5, 4), (0, 2), (0, 1)] ↔ r ∈ reads := by
    intro r
    simp only [reads, List.mem_cons, List.not_mem_nil, or_false]
    tauto
  refine ⟨hreads, hthird, hfourth, hown.2 (by simp [reads]), ?_, hcongr _ hsame⟩
  rw [← Bool.not_eq_true, hother]
  simp [reads]

end StampWords

end RadixStore
