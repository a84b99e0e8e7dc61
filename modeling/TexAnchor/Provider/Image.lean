import TexAnchor.Provider.Basic

/-! # Images

`\includegraphics[options]` with the path of an image in braces. -/

namespace TexAnchor.Provider.Image

/-- The provider's name. -/
def name : String := "includegraphics"

/-- The command may be starred. -/
def isImageCommand (command : String) : Bool :=
  let unstarred := (command.toList.reverse.dropWhile (· == '*')).reverse
  unstarred == name.toList

/-- An option set; setting it again keeps its place. -/
def setOption (options : List (String × Option String)) (key : String) (value : Option String) :
    List (String × Option String) :=
  if options.any fun option => option.1 == key then
    options.map fun option => if option.1 = key then (key, value) else option
  else options ++ [(key, value)]

/-- The option that an item of a parameter list is, added to the others. -/
def addItem (options : List (String × Option String)) (item : View) :
    List (String × Option String) :=
  match item.kind with
  | .assignment key value => setOption options key (some value)
  | .parameter value => setOption options value none
  | _ => options

/-- The options in the square blocks of a command. -/
def options (v : View) : List (String × Option String) :=
  let squares := v.parameterBlocks.filter (·.kind.tag == .squareBlock)
  let items := squares.flatMap fun block => block.children.flatMap View.children
  items.foldl addItem []

/-- The path is in the last block in braces. -/
def build (s : Subject) : Except ProviderError (String × ModelContent) :=
  match s.view.curlyBlocks.getLast? with
  | none => .error (.missingParameter name "image path")
  | some block => do
    let path ← s.argument name block
    return (name, .image path (options s.view))

/-- Images. -/
def provider : Provider where
  name := name
  acceptsMapping := ofKind name
  acceptsNode v := v.kind.commandName?.any isImageCommand && !v.curlyBlocks.isEmpty
  build := build

end TexAnchor.Provider.Image
