import TexAnchor.Arena.Basic
import TexAnchor.Mapping.Basic

/-! # Pairing mappings with nodes

`correlate` pairs the mappings of one kind with the nodes that could show them.  First every mapping
takes the first free node that starts on its line.  Then what is left on both sides is paired by
rank, mappings by line and nodes by start, until one side is used up. -/

namespace TexAnchor

/-- A node that could show a mapping, and where it starts. -/
structure Candidate where
  node : NodeId
  start : Position
deriving DecidableEq, Repr

/-- The pairs that were found, and what was left without a partner. -/
structure Correlation where
  pairs : List (Mapping × NodeId)
  unmatchedMappings : List Mapping
  unmatchedNodes : List NodeId
deriving DecidableEq, Repr

namespace Correlation

/-- The candidate starts on the line of the mapping. -/
def startsOnLine (m : Mapping) (c : Candidate) : Bool :=
  m.nodeLine? == some c.start.line

/-- What the exact phase leaves: its pairs, and the mappings and nodes without partner. -/
structure Exact where
  pairs : List (Mapping × NodeId)
  mappings : List Mapping
  nodes : List Candidate
deriving DecidableEq, Repr

/-- Every mapping in turn takes the first free node that starts on its line. -/
def exact : List Mapping → List Candidate → Exact
  | [], nodes => ⟨[], [], nodes⟩
  | m :: mappings, nodes =>
    match nodes.find? (startsOnLine m) with
    | some c =>
      let rest := exact mappings (nodes.eraseP (startsOnLine m))
      { rest with pairs := (m, c.node) :: rest.pairs }
    | none =>
      let rest := exact mappings nodes
      { rest with mappings := m :: rest.mappings }

/-- Mappings by line; equal lines keep their order. -/
def byLine (mappings : List Mapping) : List Mapping :=
  mappings.mergeSort fun a b => a.line ≤ b.line

/-- Nodes by start; equal starts keep their order. -/
def byStart (nodes : List Candidate) : List Candidate :=
  nodes.mergeSort fun a b => a.start ≤ b.start

end Correlation

/-- The pairing of mappings, in their given order, with nodes in document order. -/
def correlate (mappings : List Mapping) (nodes : List Candidate) : Correlation :=
  let left := Correlation.exact mappings nodes
  if left.mappings.isEmpty || left.nodes.isEmpty then
    ⟨left.pairs, left.mappings, left.nodes.map Candidate.node⟩
  else
    let mappings := Correlation.byLine left.mappings
    let nodes := (Correlation.byStart left.nodes).map Candidate.node
    ⟨left.pairs ++ mappings.zip nodes, mappings.drop nodes.length, nodes.drop mappings.length⟩

end TexAnchor
