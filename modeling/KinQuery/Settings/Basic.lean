import KinQuery.Files
import KinQuery.Settings.KeyPath
import KinQuery.Settings.Toml.Document

/-! The settings of the program: defaults, a settings file over them, and the environment over
both. Sources are merged key by key. -/
namespace KinQuery

structure ServerSettings where
  enabled : Bool := false
  bind : String := "127.0.0.1:3000"
  deriving DecidableEq

structure Settings where
  /-- The file of the genealogy; without one it is empty. -/
  genealogy : Option String := none
  kinshipDictionary : String := "res/kinship-dict.json"
  /-- The script that is run before the first query. -/
  helperScript : Option String := some "res/prelude.kisp"
  /-- The full name of the person whom `ego` stands for. -/
  ego : Option String := none
  caching : Bool := true
  logFilter : String := "info"
  server : ServerSettings := {}
  deriving DecidableEq

namespace Settings

/-! ### Reading settings -/

/-- A setting of a table, or its default if the table does not have it. -/
def setting {α : Type} (table : List (String × Setting)) (key : String) (default : α)
    (convert : Setting → Option α) : Except Failure α :=
  match table.lookup key with
  | none => .ok default
  | some found =>
    match convert found with
    | some a => .ok a
    | none => .error (.badSetting key)

def serverOfTable (table : List (String × Setting)) : Except Failure ServerSettings := do
  let defaults : ServerSettings := {}
  .ok {
    enabled := ← setting table "enabled" defaults.enabled Setting.toBoolean?
    bind := ← setting table "bind" defaults.bind Setting.toText? }

/-- The server's settings as a table, or as a list of its fields in order. -/
def toServer? : Setting → Option ServerSettings
  | .table table => (serverOfTable table).toOption
  | .list items => (serverOfTable (["enabled", "bind"].zip items)).toOption
  | _ => none

def ofTable (table : List (String × Setting)) : Except Failure Settings := do
  let defaults : Settings := {}
  .ok {
    genealogy := ← setting table "genealogy" defaults.genealogy Setting.toOptional?
    kinshipDictionary :=
      ← setting table "kinship_dictionary" defaults.kinshipDictionary Setting.toText?
    helperScript := ← setting table "prelude" defaults.helperScript Setting.toOptional?
    ego := ← setting table "ego" defaults.ego Setting.toOptional?
    caching := ← setting table "caching" defaults.caching Setting.toBoolean?
    logFilter := ← setting table "log_filter" defaults.logFilter Setting.toText?
    server := ← setting table "server" defaults.server toServer? }

/-! ### Sources -/

/-- The format of a settings file. -/
inductive Format where
  | toml
  | json
  deriving DecidableEq

def Format.extension : Format → String
  | .toml => "toml"
  | .json => "json"

def Format.parse? : Format → String → Option Setting
  | .toml, text => Toml.parse? text
  | .json, text => Setting.parseJson? text

def formats : List Format := [.toml, .json]

/-- The extension of the last step of a path. -/
def extension (path : String) : String :=
  let name := (path.toList.reverse.takeWhile (· ≠ '/')).reverse
  if (name.drop 1).contains '.' then .ofList (name.reverse.takeWhile (· ≠ '.')).reverse else ""

/-- A path up to its last name, to which an extension can be added. -/
def stem? (path : String) : Option String :=
  match (Place.steps path).reverse.dropWhile fun step => step.isEmpty || step = "." with
  | [] => none
  | ".." :: _ => none
  | steps => some ("/".intercalate steps.reverse)

/-- The paths of a name with the extensions of the formats. -/
def extended (name : String) : List (Format × String) :=
  (stem? name).toList.flatMap fun stem =>
    formats.map fun format => (format, stem ++ "." ++ format.extension)

/-- The settings file of a name: the file of exactly this name if its extension is that of a
format, or the name with the extension of a format added. -/
def findFile (folder : Folder) (name : String) : Option (Format × String) :=
  match folder.look name with
  | .text text => (formats.find? (·.extension = extension name)).map (·, text)
  | _ => (extended name).findSome? fun (format, path) =>
    match folder.look path with
    | .text text => some (format, text)
    | _ => none

/-- Every path at which the settings file of a name may be. -/
def candidates (name : String) : List String :=
  name :: (extended name).map (·.2)

/-- A text without the mark that shows its encoding. -/
def withoutMark (text : String) : String :=
  .ofList (Toml.dropMark text.toList)

/-- The entries of a settings file; there may be no file. -/
def fileEntries (folder : Folder) (name : String) :
    Except Failure (List (String × Setting)) :=
  match findFile folder name with
  | none => .ok []
  | some (format, text) =>
    match format.parse? (withoutMark text) with
    | some (.table entries) => .ok entries
    | _ => .error (.badSetting name)

/-- What every variable with a setting begins with, in small letters. -/
def variableMark : List Char := "kisp__".toList

/-- The usual spellings of the variables. -/
def usualVariables : List String :=
  ["KISP__GENEALOGY", "KISP__KINSHIP_DICTIONARY", "KISP__PRELUDE", "KISP__EGO", "KISP__CACHING",
    "KISP__LOG_FILTER", "KISP__SERVER__ENABLED", "KISP__SERVER__BIND"]

/-- Replaces two underscores by a dot, from left to right. -/
def dotted : List Char → List Char
  | '_' :: '_' :: cs => '.' :: dotted cs
  | c :: cs => c :: dotted cs
  | [] => []

/-- The entry that a variable of the environment stands for. -/
def variableEntry (name value : String) : Option (String × Setting) :=
  let cs := (Text.lowerCase name).toList
  if variableMark.isPrefixOf cs then
    some (.ofList (dotted (cs.drop variableMark.length)), .text value)
  else none

/-- The paths of the files that settings name. -/
def paths (settings : Settings) : List String :=
  settings.genealogy.toList ++ settings.kinshipDictionary :: settings.helperScript.toList

/-- The settings of a file and an environment. -/
def load (folder : Folder) (name : String) (environment : List (String × String)) :
    Except Failure Settings := do
  let file ← fileEntries folder name
  let overrides := environment.filterMap fun (name, value) => variableEntry name value
  ofTable (((Setting.table []).mergeSource file).mergeSource overrides).entries

end Settings
end KinQuery
