import TexAnchor.Provider.Basic

/-! # Mathematics

Displayed mathematics: `$$…$$`, `\[…\]` and the math environments. -/

namespace TexAnchor.Provider.Math

/-- The provider's name. -/
def name : String := "math"

/-- Mathematics that stands on lines of its own. -/
def isDisplayed : NodeKind → Bool
  | .math delimiter _ => delimiter.isDisplay
  | _ => false

/-- The source is kept as it was written. -/
def build (s : Subject) : Except ProviderError (String × ModelContent) :=
  match s.view.kind with
  | .math delimiter content => .ok (name, .math content delimiter.isDisplay)
  | kind => .error (.unsupportedNode name kind.describe)

/-- Displayed mathematics. -/
def provider : Provider where
  name := name
  acceptsMapping := ofKind name
  acceptsNode v := isDisplayed v.kind
  build := build

end TexAnchor.Provider.Math
