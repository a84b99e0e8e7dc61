import TexAnchor.Provider.Grid
import TexAnchor.Provider.Image
import TexAnchor.Provider.Math
import TexAnchor.Provider.Tabular

/-! # Registered providers

Providers are kept in the order in which they were registered, each name once.  A mapping belongs to
the first provider that accepts it. -/

namespace TexAnchor

/-- The built-in providers in the order in which they are registered. -/
def Provider.builtin : List Provider :=
  [Image.provider, Tabular.provider, Grid.provider, Math.provider]

/-- The registered providers in order. -/
structure Providers where
  list : List Provider
deriving Inhabited

namespace Providers

/-- No providers. -/
def empty : Providers := ⟨[]⟩

/-- The names in order. -/
def names (ps : Providers) : List String := ps.list.map Provider.name

/-- Whether a provider can still be registered: its name must be new. -/
def accepts (ps : Providers) (p : Provider) : Bool :=
  !ps.names.contains p.name

/-- One more provider; one whose name is taken is ignored. -/
def register (ps : Providers) (p : Provider) : Providers :=
  if ps.accepts p then ⟨ps.list ++ [p]⟩ else ps

/-- The built-in providers, or those of them that a list allows. -/
def builtin (allowed : Option (List String)) : Providers :=
  ⟨Provider.builtin.filter fun p => allowed.all fun names => names.contains p.name⟩

/-- The place of the first provider that accepts a mapping. -/
def assign? (ps : Providers) (m : Mapping) : Option Nat :=
  ps.list.findIdx? fun p => p.acceptsMapping m

end Providers

end TexAnchor
