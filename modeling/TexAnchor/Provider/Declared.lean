import TexAnchor.Provider.Registry

/-! # Declared providers

A provider can be declared by listing the kinds of nodes and mappings it accepts.  It builds its
models as a built-in provider does, or refuses all of them in a declared way. -/

namespace TexAnchor.Provider

/-- How a provider without a model of its own refuses. -/
inductive Refusal
  /-- Something is missing. -/
  | missing
  /-- The node is out of date. -/
  | stale
  /-- The node is refused by its text. -/
  | text
  /-- The node is refused by its description. -/
  | node
deriving DecidableEq, Repr

/-- A provider given by what it accepts. -/
structure Declaration where
  name : String
  /-- The names of the kinds of nodes. -/
  nodeKinds : List String
  /-- The kinds of mappings, where `*` stands for all; none for the provider's own name. -/
  mappingKinds : Option (List String)
  /-- The built-in provider that builds the models. -/
  delegate : Option String
  /-- How models are refused if no provider builds them. -/
  refusal : Refusal
deriving DecidableEq, Repr

namespace Declaration

/-- The refusal of a subject. -/
def refuse (d : Declaration) (s : Subject) : ProviderError :=
  match d.refusal with
  | .missing => .missingParameter d.name "something"
  | .stale => .staleNode d.name
  | .text => .unsupportedNode d.name ((s.nodeText?.map String.ofList).getD "<none>")
  | .node => .unsupportedNode d.name s.view.kind.describe

/-- The declared provider. -/
def provider (d : Declaration) : Provider where
  name := d.name
  acceptsMapping m := match d.mappingKinds with
    | none => m.kind == d.name
    | some kinds => kinds.contains "*" || kinds.contains m.kind
  acceptsNode v := d.nodeKinds.contains v.kind.tag.name
  build s := match d.delegate.bind fun name => Provider.builtin.find? (·.name == name) with
    | some p => p.build s
    | none => .error (d.refuse s)

end Declaration

end TexAnchor.Provider
