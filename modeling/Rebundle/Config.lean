import Rebundle.Disk
import Rebundle.Json.Reader
import Rebundle.Json.Value
import Rebundle.Log

/-!
# Patch configurations

A configuration holds the rules of a patch: names to remove, calls to remove, names to rename and
functions whose bodies are replaced. Each rule is optional and stands on its own.
-/

namespace Rebundle

structure PatchConfig where
  removeIdentifiers : List Text
  renameIdentifiers : Table Text Text
  removeFunctionCalls : List Text
  replaceFunctionBody : Table Text Text
deriving DecidableEq

namespace PatchConfig

def empty : PatchConfig := ⟨[], [], [], []⟩

/-- The configuration that is used when none is given. -/
def standard : PatchConfig := { empty with replaceFunctionBody := [("runAutoUpdate", "no-update")] }

def isEmpty (config : PatchConfig) : Bool :=
  config.removeIdentifiers.isEmpty && config.renameIdentifiers.isEmpty
    && config.removeFunctionCalls.isEmpty && config.replaceFunctionBody.isEmpty

/-- The rules of a configuration. -/
inductive Field where
  | removeIdentifiers | renameIdentifiers | removeFunctionCalls | replaceFunctionBody
deriving DecidableEq

namespace Field

def all : List Field :=
  [.removeIdentifiers, .renameIdentifiers, .removeFunctionCalls, .replaceFunctionBody]

def name : Field → String
  | .removeIdentifiers => "removeIdentifiers"
  | .renameIdentifiers => "renameIdentifiers"
  | .removeFunctionCalls => "removeFunctionCalls"
  | .replaceFunctionBody => "replaceFunctionBody"

/-- The other spelling of the name. -/
def snakeName : Field → String
  | .removeIdentifiers => "remove_identifiers"
  | .renameIdentifiers => "rename_identifiers"
  | .removeFunctionCalls => "remove_function_calls"
  | .replaceFunctionBody => "replace_function_body"

/-- The field that a key names in either spelling. -/
def ofKey? (key : Text) : Option Field :=
  all.find? fun field => Text.ofString field.name == key || Text.ofString field.snakeName == key

end Field

end PatchConfig

/-- Why a configuration is refused. -/
inductive ConfigFault where
  | notAnObject (found : String)
  | notNames (field : PatchConfig.Field) (found : String)
  | badName (field : PatchConfig.Field) (item : Text)
  | notMapping (field : PatchConfig.Field) (found : String)
  | emptyKey (field : PatchConfig.Field)
  | notText (field : PatchConfig.Field) (key : Text) (found : String)
  | emptyTarget (key : Text)
  | unreadable (path : Text) (fault : SystemFault)
  | invalidJson (path : Text) (fault : Json.Fault)
deriving DecidableEq

namespace ConfigFault

def message : ConfigFault → Text
  | .notAnObject found => "patch config must be an object, got " ++ found
  | .notNames field found => field.name ++ " must be a list of names, got " ++ found
  | .badName field item => field.name ++ " entries must be non-empty strings, got " ++ item
  | .notMapping field found => field.name ++ " must be an object, got " ++ found
  | .emptyKey field => field.name ++ " keys must be non-empty strings, got ''"
  | .notText field key found =>
      field.name ++ "[" ++ key.quoted ++ "] must be a string, got " ++ found
  | .emptyTarget key => "renameIdentifiers[" ++ key.quoted ++ "] must not be empty"
  | .unreadable path fault => "cannot read patch config " ++ path ++ ": " ++ fault.message
  | .invalidJson path fault => "invalid JSON in patch config " ++ path ++ ": " ++ fault.message

end ConfigFault

namespace PatchConfig

/-- The given items, which must be texts that are not empty. -/
def names (field : Field) : List Json → Except ConfigFault (List Text)
  | [] => .ok []
  | item :: rest =>
      match item with
      | .string (c :: t) => (names field rest).map ((c :: t) :: ·)
      | _ => .error (.badName field item.quoted)

/-- The names of a rule: of a list, or the keys of an object. -/
def namesOf (field : Field) : Json → Except ConfigFault (List Text)
  | .null => .ok []
  | .array items => names field items
  | .object members => names field (members.map fun member => .string member.1)
  | v => .error (.notNames field v.typeName)

def entries (field : Field) : List (Text × Json) → Except ConfigFault (Table Text Text)
  | [] => .ok []
  | (key, value) :: rest =>
      if key.isEmpty then .error (.emptyKey field)
      else
        match value with
        | .string t => (entries field rest).map ((key, t) :: ·)
        | v => .error (.notText field key v.typeName)

/-- The entries of a rule that maps names to texts. -/
def entriesOf (field : Field) : Json → Except ConfigFault (Table Text Text)
  | .null => .ok []
  | .object members => entries field members
  | v => .error (.notMapping field v.typeName)

/-- The value that is given last for a field under either of its keys. -/
def lastGiven (field : Field) (members : List (Text × Json)) : Json :=
  match members.reverse.find? fun member => Field.ofKey? member.1 == some field with
  | some (_, value) => value
  | none => .null

/-- The configuration that the members of an object give. -/
def ofMembers (members : List (Text × Json)) : Except ConfigFault PatchConfig := do
  let removed ← namesOf .removeIdentifiers (lastGiven .removeIdentifiers members)
  let renamed ← entriesOf .renameIdentifiers (lastGiven .renameIdentifiers members)
  let calls ← namesOf .removeFunctionCalls (lastGiven .removeFunctionCalls members)
  let bodies ← entriesOf .replaceFunctionBody (lastGiven .replaceFunctionBody members)
  match renamed.find? fun entry => entry.2.isEmpty with
  | some (key, _) => throw (.emptyTarget key)
  | none => return ⟨removed, renamed, calls, bodies⟩

/-- The record of a key that names no field. -/
def unknownKey? (member : Text × Json) : Option Log.Record :=
  match Field.ofKey? member.1 with
  | some _ => none
  | none => some (Log.warning ("ignoring unknown patch config key " ++ member.1.quoted))

/-- The configuration that a value describes. -/
def ofJson : Json → Logged (Except ConfigFault PatchConfig)
  | .object members => ⟨ofMembers members, members.filterMap unknownKey?⟩
  | v => ⟨.error (.notAnObject v.typeName), []⟩

/-- The description of a configuration. -/
def toJson (config : PatchConfig) : Json :=
  let texts (names : List Text) : Json := .array (names.map .string)
  let object (entries : Table Text Text) : Json :=
    .object (entries.map fun entry => (entry.1, .string entry.2))
  .object [
    (Field.removeIdentifiers.name, texts (Text.sortUnique config.removeIdentifiers)),
    (Field.renameIdentifiers.name, object config.renameIdentifiers),
    (Field.removeFunctionCalls.name, texts (Text.sortUnique config.removeFunctionCalls)),
    (Field.replaceFunctionBody.name, object config.replaceFunctionBody)]

end PatchConfig

end Rebundle
