import TexAnchor.Json.Value
import TexAnchor.Queue.Basic

/-! # Settings

The settings are a JSON record in which everything can be left out.  Unlike a mapping it may not
have fields of other names. -/

namespace TexAnchor

/-- The usual name of the file of mappings in a directory. -/
def defaultMappingsFile : String := ".ilatex-mappings"

/-- What can be set. -/
structure Settings where
  /-- The providers to register; none for all built-in ones. -/
  enabled : Option (List String)
  failurePolicy : FailurePolicy
  /-- How long a task may take. -/
  timeoutMilliseconds : Option Nat
  /-- The name of the file of mappings in a directory. -/
  mappingsFile : String
deriving DecidableEq, Repr

/-- Why settings were not read. -/
inductive SettingsError
  /-- The file is missing or is not text. -/
  | unreadable
  /-- The text is no record of settings. -/
  | invalid
deriving DecidableEq, Repr

namespace Settings

open Json (Value)

/-- The settings of the empty record. -/
def default : Settings := ⟨none, .log, none, defaultMappingsFile⟩

/-- The record's fields, each of which is a record itself. -/
def groups : List String := ["visualisations", "tasks", "mappings"]

/-- A failure policy: its name, or a record with null under its name. -/
def policy? : Value → Option FailurePolicy
  | .string (some name) => ofName? (String.ofList name)
  | .object [(some name, .null)] => ofName? (String.ofList name)
  | _ => none
where
  /-- The policy of a name. -/
  ofName? : String → Option FailurePolicy
  | "log" => some .log
  | "record" => some .record
  | _ => none

/-- A field read if it is there, and left as it is otherwise. -/
def field {α : Type} (value? : Option Value) (read? : Value → Option α) (usual : α) : Option α :=
  match value? with
  | some value => read? value
  | none => some usual

/-- The settings that a record stands for. -/
def ofValue? (value : Value) : Option Settings := do
  match ← value.fields? false groups with
  | [visualisations, tasks, mappings] =>
    let enabled ← field visualisations (fun v => do
      match ← v.fields? false ["enabled"] with
      | [enabled] => field enabled (Value.nullable? Value.texts?) none
      | _ => none) none
    let (policy, timeout) ← field tasks (fun v => do
      match ← v.fields? false ["failure_policy", "timeout_ms"] with
      | [policy, timeout] =>
        return (← field policy policy? .log, ← field timeout (Value.nullable? Value.word?) none)
      | _ => none) (.log, none)
    let file ← field mappings (fun v => do
      match ← v.fields? false ["file_name"] with
      | [name] => field name Value.text? defaultMappingsFile
      | _ => none) defaultMappingsFile
    return ⟨enabled, policy, timeout, file⟩
  | _ => none

/-- The settings of a text. -/
def read (text : List Char) : Except SettingsError Settings :=
  match (Json.read? text).bind ofValue? with
  | some settings => .ok settings
  | none => .error .invalid

/-- The settings of a file, given by its bytes if it exists. -/
def load (file : Option ByteArray) : Except SettingsError Settings :=
  match file.bind String.fromUTF8? with
  | some text => read text.toList
  | none => .error .unreadable

end Settings

end TexAnchor
