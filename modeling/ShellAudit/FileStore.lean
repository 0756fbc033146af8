-- SUMMARY: Files and directories, looked up by path from a working directory.
import ShellAudit.Fault
import ShellAudit.Path
import ShellAudit.Text.Blank
import ShellAudit.Text.Line

/-!
# Files

A file store holds files under their full names, the components from the root
on. A path that does not start with a slash starts at the working directory. A
directory exists if it is known to, if the working directory is in it, or if a
file is in it. There are a few devices, which are neither files nor directories.
-/

namespace ShellAudit

/-- The files that can be reached from a working directory. -/
structure FileStore where
  /-- The full name of the working directory. -/
  home : List String
  /-- The files by their full names. -/
  files : List (List String × ByteArray)
  /-- The directories that exist whether there are files in them or not. -/
  directories : List (List String) := []
deriving Inhabited

namespace FileStore

/-! ## The usual surroundings -/

/-- What is neither a file nor a directory. -/
inductive Device where
  /-- Nothing can be read from it, and what is written to it is lost. -/
  | null
  /-- What is written to it goes elsewhere, and reading from it need not end. -/
  | stream
  /-- It takes nothing that is written to it. -/
  | refusing
deriving DecidableEq, Repr, Inhabited

/-- The devices by their full names. -/
def device? : List String → Option Device
  | ["dev", "null"] => some .null
  | ["dev", "zero"] | ["dev", "random"] | ["dev", "urandom"] => some .stream
  | ["dev", "stdin"] | ["dev", "stdout"] | ["dev", "stderr"] => some .stream
  | ["dev", "full"] | ["dev", "tty"] => some .refusing
  | _ => none

/-- The directories that every system has. -/
def usualDirectories : List (List String) :=
  [["bin"], ["boot"], ["dev"], ["dev", "fd"], ["dev", "pts"], ["dev", "shm"], ["etc"], ["home"],
    ["lib"], ["lib64"], ["media"], ["mnt"], ["opt"], ["proc"], ["root"], ["run"], ["sbin"], ["srv"],
    ["sys"], ["tmp"], ["usr"], ["usr", "bin"], ["usr", "lib"], ["usr", "local"], ["usr", "sbin"],
    ["usr", "share"], ["var"], ["var", "cache"], ["var", "lib"], ["var", "log"], ["var", "tmp"]]

/-- The store with given files below a working directory, in the usual surroundings. -/
def ofFiles (home : List String) (files : List (String × ByteArray)) : FileStore where
  home := home
  files := files.map fun (path, bytes) => (home ++ Path.proper path, bytes)
  directories := usualDirectories

/-! ## Looking up -/

/-- What a path leads to. -/
inductive Place where
  | file (name : List String) (bytes : ByteArray)
  | directory (name : List String)
  | device (device : Device)
  /-- Nothing, but in a directory that exists. -/
  | vacant (name : List String)

def get? (store : FileStore) (name : List String) : Option ByteArray :=
  (store.files.find? (·.1 == name)).map (·.2)

def isDirectory (store : FileStore) (name : List String) : Bool :=
  name.isPrefixOf store.home
    || store.directories.contains name
    || store.files.any fun f => name.isPrefixOf f.1 && name.length < f.1.length

/-- The file or the device under a name. -/
def occupant? (store : FileStore) (name : List String) : Option Place :=
  match store.get? name with
  | some bytes => some (.file name bytes)
  | none => (device? name).map .device

/-- The greatest length of a component, in bytes. -/
def maxComponent : Nat := 255

/-- The greatest length of a path, in bytes. -/
def maxPath : Nat := 4095

/-- Follows components from a directory. Two dots lead up, and at the root stay there. -/
def descend (store : FileStore) (dir : List String) : List String → Except Fault Place
  | [] => .ok (.directory dir)
  | c :: cs =>
    if c = "" ∨ c = "." then store.descend dir cs
    else if c = ".." then store.descend dir.dropLast cs
    else if maxComponent < c.utf8ByteSize then .error .nameTooLong
    else
      let here := dir ++ [c]
      if store.isDirectory here then store.descend here cs
      else
        match store.occupant? here, cs with
        | some place, [] => .ok place
        | some _, _ :: _ => .error .notDirectory
        | none, [] => .ok (.vacant here)
        | none, _ :: _ => .error .fileNotFound

/-- What a path leads to. -/
def locate (store : FileStore) (path : String) : Except Fault Place :=
  if path = "" then .error .fileNotFound
  else if Path.hasNull path then .error .nullInPath
  else if maxPath < path.utf8ByteSize then .error .nameTooLong
  else store.descend (if Path.isAbsolute path then [] else store.home) (Path.components path)

/-! ## Reading and writing -/

/-- The bytes of the file at a path. -/
def read (store : FileStore) (path : String) : Except Fault ByteArray :=
  match store.locate path with
  | .ok (.file _ bytes) => .ok bytes
  | .ok (.directory _) => .error .isDirectory
  | .ok (.vacant _) => .error .fileNotFound
  | .ok (.device .null) => .ok ByteArray.empty
  | .ok (.device _) => .error .deviceFailed
  | .error fault => .error fault

/-- The text of the file at a path, with every newline as a line feed. -/
def readText (store : FileStore) (path : String) : Except Fault String :=
  match store.read path with
  | .ok bytes =>
    match String.fromUTF8? bytes with
    | some text => .ok (String.ofList (Text.unifyNewlines text.toList))
    | none => .error .notText
  | .error fault => .error fault

/-- The rows of the file at a path; none if there is no path or no text to read. -/
def rows (store : FileStore) (path : Option String) : List String :=
  match path.map store.readText with
  | some (.ok text) => Text.rowsOf text
  | _ => []

/-- The store with other bytes under a name. -/
def put (store : FileStore) (name : List String) (bytes : ByteArray) : FileStore :=
  { store with files := store.files.filter (·.1 ≠ name) ++ [(name, bytes)] }

/-- The store after a text has been written to the place that a path leads to. -/
def writeAt (store : FileStore) (text : String) : Place → Except Fault FileStore
  | .file name _ => .ok (store.put name text.toUTF8)
  | .vacant name => .ok (store.put name text.toUTF8)
  | .directory _ => .error .isDirectory
  | .device .refusing => .error .deviceFailed
  | .device _ => .ok store

/-- The store after a text has been written to a path. A path that ends in a
slash asks for a directory, so nothing can be written to it. -/
def write (store : FileStore) (path text : String) : Except Fault FileStore :=
  match store.locate (Path.withoutSlash path) with
  | .error fault => .error fault
  | .ok place =>
    if Path.endsInSlash path then .error .isDirectory else store.writeAt text place

/-- The files, by their full names, that are not in an earlier store or differ there. -/
def changedSince (store earlier : FileStore) : List (List String × ByteArray) :=
  store.files.filter fun (name, bytes) => earlier.get? name != some bytes

/-- The files below the working directory that are not in an earlier store or
differ there, by their paths from the working directory. -/
def changedBelow (store earlier : FileStore) : List (String × ByteArray) :=
  ((store.changedSince earlier).filter fun f => store.home.isPrefixOf f.1).map
    fun (name, bytes) => ("/".intercalate (name.drop store.home.length), bytes)

/-! ## Listing -/

/-- The order of a listing: in each directory the files by name, then the
subdirectories by name. -/
def listedBefore : List String → List String → Bool
  | [a], [b] => a ≤ b
  | [_], _ => true
  | _, [_] => false
  | a :: as, b :: bs => if a = b then listedBefore as bs else a ≤ b
  | [], _ => true
  | _, [] => false

/-- The files below a directory of the working directory, by their components
from there. -/
def filesBelow (store : FileStore) (dir : List String) : List (List String) :=
  let full := store.home ++ dir
  ((store.files.filter fun f => full.isPrefixOf f.1 && full.length < f.1.length).map
    fun f => f.1.drop full.length).mergeSort listedBefore

end FileStore

end ShellAudit
