import Std.Data.ExtTreeMap

namespace SimpleLR

inductive FileError where
  | missing
  | isDirectory
  | notDirectory
  | nameTooLong
  | nulInPath
  | notText
  | other (message : String)
deriving DecidableEq, Repr

def FileError.message : FileError → String
  | missing => "No such file or directory (os error 2)"
  | isDirectory => "Is a directory (os error 21)"
  | notDirectory => "Not a directory (os error 20)"
  | nameTooLong => "File name too long (os error 36)"
  | nulInPath => "file name contained an unexpected NUL byte"
  | notText => "stream did not contain valid UTF-8"
  | other message => message

/-- A monad with access to text files. Writing creates a file or replaces its content. -/
class FileAccess (m : Type → Type) where
  readText : String → m (Except FileError String)
  writeText : String → String → m (Except FileError Unit)

/-- The names that lead from the root to a file or directory. -/
abbrev Location := List String

inductive Node where
  | file (content : ByteArray)
  | directory

instance : DecidableEq Node
  | .file content, .file content' =>
    if h : content.data = content'.data then isTrue (congrArg Node.file (ByteArray.ext h))
    else isFalse fun he => h (congrArg ByteArray.data (Node.file.inj he))
  | .file _, .directory => isFalse nofun
  | .directory, .file _ => isFalse nofun
  | .directory, .directory => isTrue rfl

/-- The files and directories below a root, and the directory where a path starts that does not
begin with a slash. -/
structure FileSystem where
  nodes : Std.ExtTreeMap Location Node
  workingDirectory : Location
deriving DecidableEq

namespace FileSystem

def ofWorkingDirectory (l : Location) : FileSystem :=
  ⟨.ofList ((List.range l.length).map fun n => (l.take (n + 1), Node.directory)), l⟩

def node? (fs : FileSystem) : Location → Option Node
  | [] => some .directory
  | l => fs.nodes[l]?

def setNode (fs : FileSystem) (l : Location) (n : Node) : FileSystem :=
  { fs with nodes := fs.nodes.insert l n }

/-- The greatest length of a name, in bytes. -/
def maxNameSize : Nat :=
  255

/-- The greatest length of a path, in bytes. -/
def maxPathSize : Nat :=
  4095

def enter (fs : FileSystem) (l : Location) (name : String) : Except FileError Location :=
  match fs.node? l with
  | none => .error .missing
  | some (.file _) => .error .notDirectory
  | some .directory =>
    if name = "" ∨ name = "." then .ok l
    else if name = ".." then .ok l.dropLast
    else if name.utf8ByteSize > maxNameSize then .error .nameTooLong
    else .ok (l ++ [name])

def walk (fs : FileSystem) (l : Location) (names : List String) : Except FileError Location :=
  names.foldlM fs.enter l

def pathNames (path : String) : Except FileError (List String) :=
  if '\x00' ∈ path.toList then .error .nulInPath
  else if path = "" then .error .missing
  else if path.utf8ByteSize > maxPathSize then .error .nameTooLong
  else .ok ((path.toList.splitOn '/').map String.ofList)

def origin (fs : FileSystem) (names : List String) : Location :=
  if names.head? = some "" then [] else fs.workingDirectory

/-- Where a path leads. There need be nothing there yet. -/
def locate (fs : FileSystem) (path : String) : Except FileError Location := do
  let names ← pathNames path
  fs.walk (fs.origin names) names

/-- Where a path leads to which a file is to be written. A path that ends with a slash can only
lead to a directory, and what is before its last name has to be one already. -/
def locateNew (fs : FileSystem) (path : String) : Except FileError Location := do
  let names ← pathNames path
  if names.getLast? = some "" then
    let parents := (names.reverse.dropWhile (· = "")).tail.reverse
    let _ ← fs.walk (fs.origin names) (parents ++ ["."])
    throw .isDirectory
  else
    let l ← fs.walk (fs.origin names) names
    if fs.node? l = some .directory then throw .isDirectory
    return l

def readText (fs : FileSystem) (path : String) : Except FileError String := do
  match fs.node? (← fs.locate path) with
  | none => .error .missing
  | some .directory => .error .isDirectory
  | some (.file content) => (String.fromUTF8? content).elim (.error .notText) .ok

def writeBytes (fs : FileSystem) (path : String) (content : ByteArray) :
    Except FileError FileSystem := do
  return fs.setNode (← fs.locateNew path) (.file content)

def writeText (fs : FileSystem) (path text : String) : Except FileError FileSystem :=
  fs.writeBytes path text.toUTF8

/-- Goes from a directory to one of its entries, which becomes a directory if it is not there. -/
def enterNew (l : Location) (name : String) : ExceptT FileError (StateM FileSystem) Location := do
  let l ← (← get).enter l name
  if ((← get).node? l).isNone then
    modify (·.setNode l .directory)
  return l

/-- Makes the directories on a path that are not there. Those before a failure stay. A directory
after whose name the path goes on with periods alone has to be there already. -/
def makeDirectories (path : String) : ExceptT FileError (StateM FileSystem) Unit := do
  let names ← pathNames path
  let dots := names.reverse.takeWhile fun name => name = "" ∨ name = "."
  let made := names.length - dots.length - if "." ∈ dots then 1 else 0
  let l ← (names.take made).foldlM enterNew ((← get).origin names)
  let _ ← (← get).walk l (names.drop made ++ ["."])

def names (fs : FileSystem) : List String :=
  fs.nodes.keys.filterMap fun l => if l.dropLast = fs.workingDirectory then l.getLast? else none

instance : FileAccess (StateM FileSystem) where
  readText path := do return (← get).readText path
  writeText path text := do
    match (← get).writeText path text with
    | .ok fs => set fs; return .ok ()
    | .error e => return .error e

end FileSystem

end SimpleLR
