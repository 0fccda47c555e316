import ElmNavigator.Json.Basic
import ElmNavigator.Text.Basic

/-!
# Settings

Settings arrive as JSON, flat or nested under `elm`.  Missing settings have defaults and unknown ones
are ignored, but a setting of the wrong shape spoils the whole value.
-/

namespace ElmNavigator

structure Settings where
  /-- How many files a scan of the workspace reads at most. -/
  maxFiles : Nat
  /-- Glob of files that are left out of searches; a blank one leaves out nothing. -/
  excludePattern : String
  /-- Project manifests, in the order in which they are tried. -/
  manifestFiles : List String
  sourceDirectoriesField : String
deriving Repr, DecidableEq

namespace Settings

def default : Settings where
  maxFiles := 600
  excludePattern := "**/\x7bnode_modules,elm-stuff\x7d/**"
  manifestFiles := ["elm.json", "elm-package.json"]
  sourceDirectoriesField := "source-directories"

instance : Inhabited Settings := ⟨default⟩

def maxFilesName : String := "maxWorkspaceFilesUsedBySymbols"

def excludePatternName : String := "workspaceFilesExcludePatternUsedBySymbols"

def manifestFilesName : String := "manifestFiles"

def sourceDirectoriesFieldName : String := "sourceDirectoriesField"

/-- A setting: its default if it is missing, nothing if it has the wrong shape. -/
def setting {α : Type} (shape : Json -> Option α) (fallback : α) : Option Json -> Option α
  | none => some fallback
  | some value => shape value

def ofValues? (maxFiles exclude manifests field : Option Json) : Option Settings := do
  let maxFiles ← setting Json.natural? default.maxFiles maxFiles
  let excludePattern ← setting Json.string? default.excludePattern exclude
  let manifestFiles ← setting Json.strings? default.manifestFiles manifests
  let sourceDirectoriesField ← setting Json.string? default.sourceDirectoriesField field
  return { maxFiles, excludePattern, manifestFiles, sourceDirectoriesField }

def ofFields? (fields : List (String × Json)) : Option Settings :=
  ofValues? (Json.lookup? fields maxFilesName) (Json.lookup? fields excludePatternName)
    (Json.lookup? fields manifestFilesName) (Json.lookup? fields sourceDirectoriesFieldName)

/-- Settings from JSON.  Null means the defaults, and an array gives the settings by position. -/
def ofJson? : Json -> Option Settings
  | .null => some default
  | .object fields =>
      match Json.lookup? fields "elm" with
      | some (.object nested) => ofFields? nested
      | _ => ofFields? fields
  | .array items =>
      if items.length > 4 then none else ofValues? items[0]? items[1]? items[2]? items[3]?
  | _ => none

def exclude? (s : Settings) : Option String :=
  match Text.trim Text.isBlank s.excludePattern.toList with
  | [] => none
  | c :: cs => some (String.ofList (c :: cs))

end Settings
end ElmNavigator
