import TexAnchor.Json.Writer
import TexAnchor.Mapping.Basic

/-! # Writing mappings

`Mapping.render` writes a mapping the way the build step does: one compact record with its fields in
order. -/

namespace TexAnchor.Mapping

/-- A named field of a record. -/
def renderField (name : String) (value : List Char) : List Char :=
  Json.quote name.toList ++ ':' :: value

/-- The mapping as one line of a batch. -/
def render (m : Mapping) : List Char :=
  '\x7b' :: renderField "kind" (Json.quote m.kind.toList)
    ++ ',' :: renderField "id" (Json.renderNat m.id)
    ++ ',' :: renderField "source_file" (Json.quote m.sourceFile.spelling.toList)
    ++ ',' :: renderField "line" (Json.renderNat m.line) ++ ['\x7d']

end TexAnchor.Mapping
