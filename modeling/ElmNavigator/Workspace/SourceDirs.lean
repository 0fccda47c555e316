import ElmNavigator.Json.Reader
import ElmNavigator.Workspace.Files
import ElmNavigator.Workspace.Settings

/-!
# Source directories

The project manifest says in which directories modules are looked for.  Manifests are tried in the
configured order; one that cannot be read, is not JSON or declares no directories is passed over.
Without a usable manifest the workspace root is the only source directory.
-/

namespace ElmNavigator
namespace SourceDirs

/-- The directories that a manifest declares.  A package keeps its modules in `src` without saying
so; a list with anything but strings in it declares nothing. -/
def declared? (manifest : Json) (field : String) : Option (List String) :=
  match manifest.field? field with
  | some (.array items) => items.mapM (·.string?)
  | _ =>
      if (manifest.field? "type").bind (·.string?) = some "package" then some ["src"] else none

def ofManifest? (text field : String) : Option (List String) := do
  let manifest ← Json.read? text
  declared? manifest field

variable {m : Type -> Type} [Monad m]

/-- The directories of the first usable one among some manifests. -/
def ofManifests (files : Files m) (root : Path) (field : String) :
    List String -> m (List Path)
  | [] => return [root]
  | manifest :: others => do
      match ← files.read (root.join (Path.ofString manifest)) with
      | .error _ => ofManifests files root field others
      | .ok text =>
          match ofManifest? text field with
          | none => ofManifests files root field others
          | some dirs => return dirs.map fun dir => (root.join (Path.ofString dir)).normalize

def discover (files : Files m) (root : Path) (settings : Settings) : m (List Path) :=
  ofManifests files root settings.sourceDirectoriesField settings.manifestFiles

end SourceDirs
end ElmNavigator
