import RadixStore.Text.Record

/-!
# Store configuration

Whether a commit trims the chains it wrote, and how many versions a chain must have for trimming to
be worth the trouble.
-/

namespace RadixStore

/-- The settings of a store. -/
structure Config where
  /-- Trim the chains that a transaction wrote when it commits. -/
  inlineGc : Bool
  /-- Chains with fewer versions are not trimmed. -/
  gcMinChainLen : Nat
deriving DecidableEq, Repr

namespace Config

/-- No trimming on commit; a chain of one version has nothing to trim. -/
def standard : Config := ⟨false, 2⟩

def withInlineGc (c : Config) (enabled : Bool) : Config :=
  { c with inlineGc := enabled }

/-- Set the shortest chain worth trimming; below two there is nothing to gain. -/
def withGcMinChainLen (c : Config) (length : Nat) : Config :=
  { c with gcMinChainLen := if length < 2 then 2 else length }

def isStandard (c : Config) : Bool :=
  c = standard

def text (c : Config) : String :=
  Text.record "StoreConfig"
    [("inline_gc", Text.flag c.inlineGc), ("gc_min_chain_len", toString c.gcMinChainLen)]

end Config

/-- The settings that differ from the standard ones. -/
structure Settings where
  inlineGc : Option Bool
  minChainLen : Option Nat
  /-- Overrides the shortest chain worth trimming, even by a length below two. -/
  exactMinChainLen : Option Nat
deriving DecidableEq, Repr

/-- The configuration with these settings. -/
def Settings.config (s : Settings) : Config :=
  let c := Config.standard
  let c := match s.inlineGc with
    | none => c
    | some enabled => c.withInlineGc enabled
  let c := match s.minChainLen with
    | none => c
    | some length => c.withGcMinChainLen length
  match s.exactMinChainLen with
  | none => c
  | some length => { c with gcMinChainLen := length }

end RadixStore
