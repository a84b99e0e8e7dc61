import TexAnchor.Document.Basic
import TexAnchor.Model

/-! # Providers

A `Provider` stands for one kind of visualisation: which mappings and which nodes it accepts, and
how it builds the content of a model from a node that was paired with a mapping. -/

namespace TexAnchor

/-- What a model is built from: a node of a document and the mapping it was paired with. -/
structure Subject where
  document : Document
  view : View
  mapping : Mapping
deriving Repr

/-- Why a provider cannot build a model. -/
inductive ProviderError
  /-- The node lacks something the provider needs. -/
  | missingParameter (provider what : String)
  /-- The node is not one that the provider can read. -/
  | unsupportedNode (provider node : String)
  /-- The node's range does not fit the text any more. -/
  | staleNode (provider : String)
deriving DecidableEq, Repr

/-- The report of the error. -/
def ProviderError.message : ProviderError → String
  | missingParameter provider what => s!"{provider}: missing {what}"
  | unsupportedNode provider node => s!"{provider}: cannot build a model from {node}"
  | staleNode provider => s!"{provider}: node text is out of date"

/-- One kind of visualisation. -/
structure Provider where
  name : String
  acceptsMapping : Mapping → Bool
  acceptsNode : View → Bool
  /-- The kind and the content of the model, if it can be built. -/
  build : Subject → Except ProviderError (String × ModelContent)

/-- The usual choice of mappings: those of the provider's name. -/
def Provider.ofKind (name : String) (m : Mapping) : Bool := m.kind == name

namespace Subject

/-- The text that the node covers. -/
def nodeText? (s : Subject) : Option (List Char) :=
  s.document.nodeText? s.view.id

/-- The text from the first to the last of some nodes; nothing for no nodes. -/
def spanText? (s : Subject) (nodes : List View) : Option (List Char) :=
  match nodes.head?, nodes.getLast? with
  | some first, some last => s.document.textIn? (.spanning first.range.start last.range.stop)
  | _, _ => some []

/-- The text inside a parameter block. -/
def blockText? (s : Subject) (block : View) : Option (List Char) :=
  s.spanText? block.children

/-- The trimmed text from the first to the last of some nodes. -/
def trimmedSpan (s : Subject) (provider : String) (nodes : List View) :
    Except ProviderError String :=
  match s.spanText? nodes with
  | some text => .ok (String.ofList (Text.trim text))
  | none => .error (.staleNode provider)

/-- The trimmed text inside a parameter block. -/
def argument (s : Subject) (provider : String) (block : View) : Except ProviderError String :=
  s.trimmedSpan provider block.children

end Subject

/-- The nodes without the white space and comments at both ends. -/
def trimTrivia (nodes : List View) : List View :=
  let trivia (v : View) := v.kind.isTrivia
  ((nodes.dropWhile trivia).reverse.dropWhile trivia).reverse

end TexAnchor
