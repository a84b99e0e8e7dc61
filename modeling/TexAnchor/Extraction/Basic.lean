import TexAnchor.Extraction.Correlation
import TexAnchor.Extraction.Report
import TexAnchor.Mapping.Registry
import TexAnchor.Provider.Registry

/-! # Extracting models

`extractFrom` pairs the mappings of one document with its nodes, provider by provider, and builds a
model from every pair.  A mapping belongs to the first provider that accepts it, and a node that has
been paired is not paired again.  `extractAll` does this for a list of documents. -/

namespace TexAnchor

/-- The models of an extraction and its report. -/
structure Extraction where
  models : List Model
  report : Report
deriving DecidableEq, Repr

namespace Extraction

/-- An extraction of nothing. -/
def empty : Extraction := ⟨[], Report.empty⟩

/-- Two extractions together. -/
def merge (e other : Extraction) : Extraction :=
  ⟨e.models ++ other.models, e.report.merge other.report⟩

/-- The nodes of a document's tree that a provider accepts, in document order. -/
def candidateViews (d : Document) (p : Provider) : List View :=
  ((d.root?.map View.descendants).getD []).filter p.acceptsNode

/-- The mappings that belong to a provider's place in the registry. -/
def assignedTo (providers : Providers) (index : Nat) (mappings : List Mapping) : List Mapping :=
  mappings.filter fun m => providers.assign? m == some index

/-- The pairing of one provider's mappings with the nodes that are still free. -/
def correlateFor (d : Document) (p : Provider) (mappings : List Mapping) (used : List NodeId) :
    Correlation :=
  let free := (candidateViews d p).filter fun v => !used.contains v.id
  correlate mappings (free.map fun v => ⟨v.id, v.range.start⟩)

/-- The model of a pair, or the failure to build one; nothing if the node is not live. -/
def build (d : Document) (p : Provider) (pair : Mapping × NodeId) : Extraction :=
  match d.arena.view? pair.2 with
  | none => empty
  | some v =>
    match p.build ⟨d, v, pair.1⟩ with
    | .ok (kind, content) =>
      ⟨[⟨kind, d.path, pair.2, v.range, pair.1, content⟩], { Report.empty with models := 1 }⟩
    | .error error =>
      ⟨[], { Report.empty with failures := [⟨d.path, p.name, pair.1.id, pair.2, error⟩] }⟩

/-- What a pairing left without a partner, if anything. -/
def shortfall (d : Document) (p : Provider) (c : Correlation) : Extraction :=
  if c.unmatchedMappings.isEmpty && c.unmatchedNodes.isEmpty then empty
  else
    let entry : Shortfall := ⟨d.path, p.name, c.unmatchedMappings.map Mapping.id, c.unmatchedNodes⟩
    ⟨[], { Report.empty with shortfalls := [entry] }⟩

/-- The outcome of one provider's pairing. -/
def ofCorrelation (d : Document) (p : Provider) (c : Correlation) : Extraction :=
  (c.pairs.foldl (fun e pair => e.merge (build d p pair)) empty).merge (shortfall d p c)

/-- The providers from a place on, each with the nodes that the ones before it left free. -/
def byProvider (d : Document) (providers : Providers) (mappings : List Mapping)
    (used : List NodeId) (index : Nat) : List Provider → Extraction
  | [] => empty
  | p :: later =>
    let c := correlateFor d p (assignedTo providers index mappings) used
    (ofCorrelation d p c).merge
      (byProvider d providers mappings (used ++ c.pairs.map (·.2)) (index + 1) later)

end Extraction

/-- The models of one document. -/
def extractFrom (d : Document) (mappings : List Mapping) (providers : Providers) : Extraction :=
  let unassigned := mappings.countP fun m => (providers.assign? m).isNone
  let head : Extraction := ⟨[], { Report.empty with files := 1, unassigned }⟩
  head.merge (Extraction.byProvider d providers mappings [] 0 providers.list)

/-- The models of several documents, in their order. -/
def extractAll (documents : List Document) (mappings : Registry) (providers : Providers) :
    Extraction :=
  documents.foldl (fun e d => e.merge (extractFrom d (mappings.get d.path) providers))
    Extraction.empty

end TexAnchor
