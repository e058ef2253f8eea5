import EpsilonAutomata.Error

/-!
A tree of directories and files, addressed by relative paths. The names on a path are looked up one by
one; each but the last has to be a directory. A place is written as the names that lead to it from the
root; the directories that the root lies in are `[".."]`, `["..", ".."]` and so on. The limits for paths
and names are in bytes.

The tree has no permissions, no links and no special files: every file in it may be read and replaced,
and a file holds what was last written to it. What a file system may refuse beyond that
(`FileRefusal.denied`, `FileRefusal.other`) comes from the machine on which the program runs, never from
`Files.read` or `Files.write`.
-/
namespace EpsilonAutomata

inductive FileEntry where
  | directory
  | file (bytes : ByteArray)

structure Files where
  entries : OrderedMap (List String) FileEntry

namespace Files

def empty : Files := ⟨∅⟩

structure Path where
  names : List String
  slash : Bool

def Path.ofString (path : String) : Path where
  names := (path.splitOn "/").filter (· ≠ "")
  slash := path.endsWith "/"

def pathLimit : Nat := 4095

def nameLimit : Nat := 255

def Path.read (path : String) : Except FileRefusal Path :=
  if path.contains '\x00' then .error .nulInName
  else if path = "" then .error .notFound
  else if pathLimit < path.utf8ByteSize then .error .nameTooLong
  else .ok (.ofString path)

/-- The directory around a directory. The root lies in others, and there is always one more. -/
def parent (directory : List String) : List String :=
  if directory.all (· = "..") then directory ++ [".."] else directory.dropLast

/-- The place that one name leads to from a directory. Nothing is known to be outside the tree but the
directories around it. -/
def lookUp (files : Files) (directory : List String) (name : String) : Except FileRefusal (List String) :=
  if name = "." then .ok directory
  else if name = ".." then .ok (parent directory)
  else if nameLimit < name.utf8ByteSize then .error .nameTooLong
  else if (files.entries.find? (directory ++ [name])).isSome then .ok (directory ++ [name])
  else .error .notFound

def isFile (files : Files) (place : List String) : Bool :=
  match files.entries.find? place with
  | some (.file _) => true
  | _ => false

def walk (files : Files) (place : List String) : List String → Except FileRefusal (List String)
  | [] => .ok place
  | name :: rest =>
    if files.isFile place then .error .notDirectory
    else match files.lookUp place name with
      | .error refusal => .error refusal
      | .ok next => files.walk next rest

def resolve (files : Files) (path : String) : Except FileRefusal (List String) :=
  match Path.read path with
  | .error refusal => .error refusal
  | .ok parsed =>
    match files.walk [] parsed.names with
    | .error refusal => .error refusal
    | .ok place => if parsed.slash ∧ files.isFile place then .error .notDirectory else .ok place

def leadsToDirectory (files : Files) (path : String) : Bool :=
  match files.resolve path with
  | .ok place => !files.isFile place
  | .error _ => false

def readBytes (files : Files) (path : String) : Except FileRefusal ByteArray :=
  match files.resolve path with
  | .error refusal => .error refusal
  | .ok place => match files.entries.find? place with
    | some (.file bytes) => .ok bytes
    | _ => .error .isDirectory

def decode (bytes : ByteArray) : Except FileRefusal String :=
  match String.fromUTF8? bytes with
  | some text => .ok text
  | none => .error .notText

def read (files : Files) (path : String) : Except FileRefusal String :=
  match files.readBytes path with
  | .error refusal => .error refusal
  | .ok bytes => decode bytes

/-- Replaces a file or makes a new one in a directory that is there. -/
def write (files : Files) (path text : String) : Except FileRefusal Files :=
  match Path.read path with
  | .error refusal => .error refusal
  | .ok parsed =>
    match parsed.names.reverse with
    | [] => .error .isDirectory
    | name :: parents =>
      match files.walk [] parents.reverse with
      | .error refusal => .error refusal
      | .ok directory =>
        if files.isFile directory then .error .notDirectory
        else if parsed.slash then .error .isDirectory
        else match files.lookUp directory name with
          | .error .notFound => .ok ⟨files.entries.insert (directory ++ [name]) (.file text.toUTF8)⟩
          | .error refusal => .error refusal
          | .ok place =>
            if files.isFile place then .ok ⟨files.entries.insert place (.file text.toUTF8)⟩
            else .error .isDirectory

def children (files : Files) (directory : List String) : List String :=
  files.entries.keys.filterMap fun place =>
    if place.dropLast = directory then place.getLast? else none

/-- Goes from a directory to the one that a name leads to, and makes it where it is not there yet. -/
def enter (files : Files) (directory : List String) (name : String) : Files × List String :=
  if name = "." then (files, directory)
  else if name = ".." then (files, parent directory)
  else
    let place := directory ++ [name]
    (⟨files.entries.alter place fun old => old.getD .directory⟩, place)

def enterAll (files : Files) (names : List String) : Files × List String :=
  names.foldl (fun (files, directory) name => files.enter directory name) (files, [])

def addDirectory (files : Files) (path : String) : Files := (files.enterAll (Path.ofString path).names).1

def addFile (files : Files) (path : String) (bytes : ByteArray) : Files :=
  match (Path.ofString path).names.reverse with
  | [] => files
  | name :: parents =>
    let (files, directory) := files.enterAll parents.reverse
    ⟨files.entries.insert (directory ++ [name]) (.file bytes)⟩

end Files
end EpsilonAutomata
