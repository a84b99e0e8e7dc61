import TexAnchor.Provider.Basic

/-! # Reports

A `Report` says what an extraction could not do: mappings that no provider accepts, mappings and
nodes that were left without a partner, and models that could not be built. -/

namespace TexAnchor

/-- The mappings or nodes of a provider and a file that were left without a partner. -/
structure Shortfall where
  sourceFile : Path
  provider : String
  mappings : List Nat
  nodes : List NodeId
deriving DecidableEq, Repr

/-- A model that could not be built. -/
structure ModelFailure where
  sourceFile : Path
  provider : String
  mapping : Nat
  node : NodeId
  error : ProviderError
deriving DecidableEq, Repr

/-- The outcome of an extraction apart from its models. -/
structure Report where
  files : Nat
  models : Nat
  /-- How many mappings no provider accepts. -/
  unassigned : Nat
  shortfalls : List Shortfall
  failures : List ModelFailure
deriving DecidableEq, Repr

namespace Report

/-- The report of an extraction of nothing. -/
def empty : Report := ⟨0, 0, 0, [], []⟩

/-- How many mappings were left without a partner. -/
def unmatchedMappings (r : Report) : Nat :=
  r.shortfalls.foldl (fun total s => total + s.mappings.length) 0

/-- How many nodes were left without a partner. -/
def unmatchedNodes (r : Report) : Nat :=
  r.shortfalls.foldl (fun total s => total + s.nodes.length) 0

/-- Everything was paired and every model was built. -/
def isComplete (r : Report) : Bool :=
  r.unassigned == 0 && r.shortfalls.isEmpty && r.failures.isEmpty

/-- The report of two extractions together. -/
def merge (r other : Report) : Report where
  files := r.files + other.files
  models := r.models + other.models
  unassigned := r.unassigned + other.unassigned
  shortfalls := r.shortfalls ++ other.shortfalls
  failures := r.failures ++ other.failures

end Report

end TexAnchor
