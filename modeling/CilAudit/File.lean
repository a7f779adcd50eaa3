import CilAudit.Log
import CilAudit.Path

/-!
# Files

What commands ask of the system they run on, and how a file system answers. A file system
may be a tree held in memory, which makes a whole run of a command a function of its files.
-/

set_option autoImplicit false

namespace CilAudit

inductive FileFault where
  | noEntry
  | notDirectory
  | isDirectory
  | nameTooLong
  | invalidName
  | other (description : Text)
  deriving DecidableEq, Repr

def FileFault.message : FileFault → Text
  | noEntry => "no such file or directory"
  | notDirectory => "not a directory"
  | isDirectory => "is a directory"
  | nameTooLong => "file name too long"
  | invalidName => "invalid argument"
  | other description => description

/-- A refused operation on a path. -/
structure FileError where
  operation : Text
  path : Text
  fault : FileFault
  deriving DecidableEq, Repr

def FileError.message (e : FileError) : Text :=
  e.operation ++ " " ++ e.path ++ ": " ++ e.fault.message

/-- The system a command runs on. -/
structure Host (m : Type → Type) where
  read : Text → m (Except FileError Text)
  /-- Gives a file its contents; a missing one is created. -/
  write : Text → Text → m (Except FileError Unit)
  /-- Creates a directory and those above it that are missing. -/
  makeDirectories : Text → m (Except FileError Unit)
  /-- Is there a file or directory with this path? -/
  isPresent : Text → m Bool
  workingDirectory : m Text
  /-- Adds to the result of the run. -/
  print : Text → m Unit
  /-- Tells what is going on, apart from the result. -/
  notify : Text → m Unit
  /-- Says how much of the log is wanted, and in which file; without a name nowhere special. -/
  openLog : Int → Text → m Unit
  log : Log → m Unit

/-- What a place in a tree of files holds. -/
inductive FileEntry where
  | directory
  | file (contents : Text)
  /-- A file that stays empty, whatever is written to it. -/
  | sink
  deriving DecidableEq, Repr

/-- The bytes of an entry that is no directory. -/
def FileEntry.contents? : FileEntry → Option Text
  | directory => none
  | file contents => some contents
  | sink => some []

/-- A tree of files, in which a place is the list of components that lead to it from the top. -/
structure FileTree where
  /-- The place of the working directory. -/
  here : List Text := []
  entries : List (List Text × FileEntry) := []
  deriving DecidableEq, Repr

namespace FileTree

/-- Is there a directory at a place? The directories above an entry need no entry of their own. -/
def isDirectory (t : FileTree) (place : List Text) : Bool :=
  place.isEmpty || t.entries.any fun (p, entry) =>
    place.isPrefixOf p && (p ≠ place || entry = .directory)

/-- The contents of the file at a place. -/
def file? (t : FileTree) (place : List Text) : Option Text :=
  (t.entries.lookup place).bind (·.contents?)

def put (t : FileTree) (place : List Text) (entry : FileEntry) : FileTree :=
  if t.entries.lookup place = some .sink then t
  else { t with entries := t.entries.filter (·.1 ≠ place) ++ [(place, entry)] }

/-- The most bytes that a component of a path may have. -/
def maxComponent : Nat := 255

/-- The number of bytes from which on a path is too long. -/
def pathLimit : Nat := 4096

/-- Is there a directory at a place, through which a path may lead? -/
def enter (t : FileTree) (place : List Text) : Except FileFault Unit :=
  if (t.file? place).isSome then .error .notDirectory
  else if !t.isDirectory place then .error .noEntry
  else .ok ()

/-- The place that components lead to from another. Each step starts at a directory, and a step
up from the top stays there. -/
def walk (t : FileTree) (place : List Text) : List Text → Except FileFault (List Text)
  | [] => .ok place
  | part :: rest => do
    t.enter place
    if part.isEmpty ∨ part = "." then t.walk place rest
    else if part = ".." then t.walk place.dropLast rest
    else if maxComponent < part.length then throw .nameTooLong
    else t.walk (place ++ [part]) rest

/-- The place at which a path starts, and its components. -/
def route (t : FileTree) (path : Text) : Except FileFault (List Text × List Text) :=
  if path.isEmpty then .error .noEntry
  else if path.elem 0 then .error .invalidName
  else if pathLimit ≤ path.length then .error .nameTooLong
  else .ok (if Path.isAbsolute path then [] else t.here, Text.splitAt 0x2F path)

/-- The place of a path, where there may be nothing yet. -/
def locate (t : FileTree) (path : Text) : Except FileFault (List Text) := do
  let (start, parts) ← t.route path
  t.walk start parts

/-- The place of a path at which a file may be created. That the path names a directory shows
before its last component is looked at, and after those in front of it are. -/
def locateNew (t : FileTree) (path : Text) : Except FileFault (List Text) := do
  let (start, parts) ← t.route path
  let above := (parts.reverse.dropWhile (·.isEmpty)).tail.reverse
  let directory ← t.walk start above
  t.enter directory
  if [[], ".", ".."].contains (parts.getLastD []) then throw .isDirectory
  let place ← t.walk start parts
  if t.isDirectory place then throw .isDirectory
  return place

def isPresent (t : FileTree) (path : Text) : Bool :=
  match t.locate path with
  | .ok place => t.isDirectory place || (t.file? place).isSome
  | .error _ => false

def read (t : FileTree) (path : Text) : Except FileError Text :=
  match t.locate path with
  | .error fault => .error ⟨"open", path, fault⟩
  | .ok place =>
    match t.file? place with
    | some contents => .ok contents
    | none =>
      if t.isDirectory place then .error ⟨"read", path, .isDirectory⟩
      else .error ⟨"open", path, .noEntry⟩

def write (t : FileTree) (path contents : Text) : Except FileError FileTree :=
  match t.locateNew path with
  | .error fault => .error ⟨"open", path, fault⟩
  | .ok place => .ok (t.put place (.file contents))

/-- Creates a directory in one that is there. -/
def makeDirectory (t : FileTree) (path : Text) : Except FileError FileTree :=
  match t.locate path with
  | .error fault => .error ⟨"mkdir", path, fault⟩
  | .ok place =>
    if (t.file? place).isSome then .error ⟨"mkdir", path, .notDirectory⟩
    else .ok (if t.isDirectory place then t else t.put place .directory)

/-- Creates the directory of a path without detours, and those above it. -/
def makeDirectories (t : FileTree) (path : Text) : Except FileError FileTree :=
  (Path.ancestors path).reverse.foldlM makeDirectory t

/-- The directories that a system has at its top. -/
def systemDirectories : List Text :=
  ["bin", "boot", "dev", "etc", "home", "lib", "lib64", "media", "mnt", "opt", "proc", "root",
    "run", "sbin", "srv", "sys", "tmp", "usr", "var"]

/-- The place of the file that takes what is not wanted. -/
def sinkPlace : List Text := ["dev", "null"]

/-- A system with an empty working directory. -/
def blank (here : List Text) : FileTree where
  here
  entries := (sinkPlace, .sink) :: (here, .directory)
    :: systemDirectories.map fun name => ([name], .directory)

/-- A system that has the files of the given paths. -/
def ofFiles (here : List Text) (files : List (Text × Text)) : FileTree :=
  files.foldl
    (fun t (path, contents) => t.put (here ++ Path.components path) (.file contents)) (blank here)

/-- The files below the working directory by path, and their contents. -/
def files (t : FileTree) : List (Text × Text) :=
  t.entries.filterMap fun (place, entry) =>
    if t.here.isPrefixOf place then
      entry.contents?.map fun c => (Text.joinWith "/" (place.drop t.here.length), c)
    else none

/-- The files that are new or differ from those of an earlier tree. -/
def changesSince (t earlier : FileTree) : List (Text × Text) :=
  t.files.filter fun (path, contents) => earlier.files.lookup path ≠ some contents

end FileTree

/-- A run in memory: the files, what was printed, and the log. -/
structure MemoryRun where
  tree : FileTree
  output : Text := []
  log : Log := []

namespace MemoryRun

/-- An operation that changes the tree if it succeeds. -/
def change (f : FileTree → Except FileError FileTree) : StateM MemoryRun (Except FileError Unit) :=
  fun r =>
    match f r.tree with
    | .ok tree => (.ok (), { r with tree })
    | .error e => (.error e, r)

/-- A system whose files are in memory. -/
def host : Host (StateM MemoryRun) where
  read path := return (← get).tree.read path
  write path contents := change (·.write path contents)
  makeDirectories path := change (·.makeDirectories path)
  isPresent path := return (← get).tree.isPresent path
  workingDirectory := return "/" ++ Text.joinWith "/" (← get).tree.here
  print t := modify fun r => { r with output := r.output ++ t }
  notify _ := pure ()
  openLog _ _ := pure ()
  log l := modify fun r => { r with log := r.log ++ l }

end MemoryRun

end CilAudit
