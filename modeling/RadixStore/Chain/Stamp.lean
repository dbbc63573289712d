/-!
# Read stamps

Every version of a value remembers the highest timestamp at which it was read and who read it
there. That is all it takes to decide whether a write that would supersede the version comes too
late: a read above the writer's timestamp is in the way, and so is a read at that timestamp by
anybody but the writer.
-/

namespace RadixStore

/-- A point in time. -/
abbrev Timestamp := Nat

/-- The end of time: the validity of a version that is still current ends here. It is the largest
    number of 64 bits. -/
def infinity : Timestamp := 18446744073709551615

/-- The identity of a transaction. -/
abbrev TxnId := Nat

/-- Who has read a version at the timestamp of its stamp. -/
inductive Readers where
  | nobody
  | only (reader : TxnId)
  | several
deriving DecidableEq, Repr

/-- The highest timestamp of a read, and who read there. -/
structure ReadStamp where
  ts : Timestamp
  readers : Readers
deriving DecidableEq, Repr

namespace ReadStamp

/-- The stamp of a version that nobody has read. -/
def fresh : ReadStamp := ⟨0, .nobody⟩

/-- Record a read by `reader` at `ts`. A read below the stamp leaves no trace. -/
def observe (s : ReadStamp) (ts : Timestamp) (reader : TxnId) : ReadStamp :=
  if s.ts < ts then ⟨ts, .only reader⟩
  else if ts = s.ts then
    match s.readers with
    | .nobody => ⟨ts, .only reader⟩
    | .only other => if other = reader then s else ⟨ts, .several⟩
    | .several => s
  else s

/-- Whether `writer`, reading at `ts`, may supersede the version. -/
def admits (s : ReadStamp) (ts : Timestamp) (writer : TxnId) : Bool :=
  s.ts < ts || (s.ts = ts && (s.readers = .nobody || s.readers = .only writer))

end ReadStamp

end RadixStore
