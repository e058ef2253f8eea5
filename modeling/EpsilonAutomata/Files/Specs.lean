import EpsilonAutomata.Editor
import EpsilonAutomata.Files

/-!
Loading specifications from files and directories, and saving them.
-/
namespace EpsilonAutomata
namespace Files

def loadSpec (files : Files) (path : String) : Except Error Editor :=
  match files.read path with
  | .error refusal => .error (.file (.unreadable path refusal))
  | .ok text => Editor.read text

/-- The text behind the last dot of a name, unless the name starts there. -/
def extension? (name : String) : Option String :=
  let reversed := name.toList.reverse
  match reversed.dropWhile (· ≠ '.') with
  | _ :: _ :: _ => some (String.ofList (reversed.takeWhile (· ≠ '.')).reverse)
  | _ => none

def join (directory name : String) : String :=
  if directory.endsWith "/" then directory ++ name else directory ++ "/" ++ name

/-- The paths of what is in a directory and has the extension `json`, without those that lead to
directories. -/
def specPaths (files : Files) (directory : String) : Except Error (List String) :=
  match files.resolve directory with
  | .error _ => .error (.file (.noDirectory directory))
  | .ok place =>
    if files.isFile place then .error (.file (.unlistable directory .notDirectory))
    else
      let names := (files.children place).filter fun name => extension? name = some "json"
      .ok ((names.map (join directory)).filter fun path => !files.leadsToDirectory path)

def loadDirectory (files : Files) (directory : String) : List (Except Error (String × Editor)) :=
  match files.specPaths directory with
  | .error error => [.error error]
  | .ok paths => paths.map fun path => (files.loadSpec path).map fun e => (path, e)

def saveSpec (files : Files) (path : String) (s : Spec) : Except Error Files :=
  (files.write path s.toJson).mapError fun refusal => .file (.unwritable path refusal)

end Files
end EpsilonAutomata
