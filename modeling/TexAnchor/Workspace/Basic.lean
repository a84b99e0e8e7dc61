import TexAnchor.Document.Replace
import TexAnchor.Extraction.Basic
import TexAnchor.Mapping.Batch
import TexAnchor.Settings

/-! # Workspaces

A `Workspace` owns the documents, the mappings and the providers, and the models of the last
extraction.  Every model has a `Uid`; a model whose source file and mapping number were among the
models of the extraction before keeps its uid, and every other model gets a new one.

An operation that can fail gives back the workspace that it leaves and how it ended.  After a failure
the workspace is as it was, except that a replacement that leaves the text unreadable keeps the edit
(`Document.replaceNode`). -/

namespace TexAnchor

/-- The handle of a model. -/
structure Uid where
  serial : Nat
deriving DecidableEq, Repr, Inhabited

/-- The handle that no model has. -/
def Uid.nil : Uid := ⟨0⟩

/-- A model and its handle. -/
structure IssuedModel extends Model where
  uid : Uid
deriving DecidableEq, Repr

/-- Why an operation on a workspace failed. -/
inductive WorkspaceError
  | unknownFile (file : Path)
  | unknownModel (uid : Uid)
  | parse (error : ParseError)
  | edit (error : EditError)
  | mapping (error : MappingError)
deriving DecidableEq, Repr

/-- The report of the error; handles are written as `name` says. -/
def WorkspaceError.message (name : Uid → String) : WorkspaceError → String
  | unknownFile file => s!"unknown source file {file.spelling}"
  | unknownModel uid => s!"no visualisation model with uid {name uid}"
  | parse error => error.message
  | edit error => error.message
  | mapping error => error.message

/-- The owner of all documents, mappings and models. -/
structure Workspace where
  settings : Settings
  documents : List Document
  mappings : Registry
  providers : Providers
  models : List IssuedModel
  report : Report
  /-- The serial number of the next new handle. -/
  nextSerial : Nat

namespace Workspace

/-- An empty workspace with some providers. -/
def withProviders (settings : Settings) (providers : Providers) : Workspace :=
  ⟨settings, [], Registry.empty, providers, [], Report.empty, 1⟩

/-- An empty workspace with the built-in providers that the settings allow. -/
def new (settings : Settings) : Workspace :=
  withProviders settings (Providers.builtin settings.enabled)

/-- One more provider, if its name is not taken. -/
def register (w : Workspace) (p : Provider) : Workspace :=
  { w with providers := w.providers.register p }

/-! ### Documents -/

/-- The document of a file. -/
def document? (w : Workspace) (file : Path) : Option Document :=
  w.documents.find? fun d => d.path.same file

/-- Another state of a document in its place. -/
def putDocument (w : Workspace) (d : Document) : Workspace :=
  { w with documents := w.documents.map fun old => if old.path.same d.path then d else old }

/-- A file's content read from scratch; a file that cannot be read is left as it was. -/
def setFile (w : Workspace) (file : Path) (text : List Char) :
    Workspace × Except WorkspaceError Unit :=
  match w.document? file with
  | some d =>
    match d.setText text with
    | .ok fresh => (w.putDocument fresh, .ok ())
    | .error error => (w, .error (.parse error))
  | none =>
    match Document.parse file text with
    | .ok fresh => ({ w with documents := w.documents ++ [fresh] }, .ok ())
    | .error error => (w, .error (.parse error))

/-- The workspace without a file and its mappings. -/
def removeFile (w : Workspace) (file : Path) : Workspace :=
  { w with
    documents := w.documents.filter fun d => !d.path.same file
    mappings := w.mappings.remove file }

/-- An edit of a file; nothing is read again. -/
def applyEdit (w : Workspace) (file : Path) (edit : Edit) :
    Workspace × Except WorkspaceError Unit :=
  match w.document? file with
  | none => (w, .error (.unknownFile file))
  | some d =>
    match d.applyEdit edit with
    | .ok edited => (w.putDocument edited, .ok ())
    | .error error => (w, .error (.edit error))

/-- A text put in the place of a node's source. -/
def replaceNode (w : Workspace) (file : Path) (id : NodeId) (text : List Char) :
    Workspace × Except WorkspaceError Replacement :=
  match w.document? file with
  | none => (w, .error (.unknownFile file))
  | some d =>
    let (replaced, outcome) := d.replaceNode id text
    (w.putDocument replaced, outcome.mapError .edit)

/-! ### Mappings -/

/-- The mappings of a file replaced. -/
def setMappings (w : Workspace) (file : Path) (batch : List Mapping) : Workspace :=
  { w with mappings := w.mappings.setFile file batch }

/-- The batches that a file of mappings names replaced, and the number of mappings in it. -/
def load (w : Workspace) (file : Option ByteArray) : Workspace × Except WorkspaceError Nat :=
  match Mapping.loadBatch file with
  | .ok batch => ({ w with mappings := w.mappings.setMixed batch }, .ok batch.length)
  | .error error => (w, .error (.mapping error))

/-- The file of mappings of a directory loaded, if the set path leads to a file of the directory;
the files are given by their paths from it. -/
def loadFrom (w : Workspace) (directory : List (Path × ByteArray)) :
    Workspace × Except WorkspaceError Nat :=
  match directory.find? fun entry => entry.1.sameFileWithin ⟨w.settings.mappingsFile⟩ with
  | some entry => w.load (some entry.2)
  | none => (w, .ok 0)

/-! ### Models -/

/-- The handle that a model had before, going by its source file and its mapping's number. -/
def previousUid? (before : List IssuedModel) (m : Model) : Option Uid :=
  (before.find? fun old => old.sourceFile.same m.sourceFile && old.mapping.id == m.mapping.id).map
    IssuedModel.uid

/-- Models with their old handles, or with new ones from `serial` on. -/
def issue (before : List IssuedModel) (serial : Nat) : List Model → List IssuedModel × Nat
  | [] => ([], serial)
  | m :: models =>
    match previousUid? before m with
    | some uid =>
      let (issued, next) := issue before serial models
      (⟨m, uid⟩ :: issued, next)
    | none =>
      let (issued, next) := issue before (serial + 1) models
      (⟨m, ⟨serial⟩⟩ :: issued, next)

/-- The models of the current documents and mappings in the place of the old ones; nodes outside
the trees are freed first. -/
def extract (w : Workspace) : Workspace :=
  let documents := w.documents.map Document.freeDetached
  let extraction := extractAll documents w.mappings w.providers
  let (models, nextSerial) := issue w.models w.nextSerial extraction.models
  { w with documents, models, nextSerial, report := extraction.report }

/-- The model with a handle. -/
def model? (w : Workspace) (uid : Uid) : Option IssuedModel :=
  w.models.find? fun m => m.uid == uid

/-- A text put in the place of the source behind a model; the models are not made anew. -/
def applyModelEdit (w : Workspace) (uid : Uid) (text : List Char) :
    Workspace × Except WorkspaceError Replacement :=
  match w.model? uid with
  | none => (w, .error (.unknownModel uid))
  | some m => w.replaceNode m.sourceFile m.node text

end Workspace

end TexAnchor
