import TreeDigest.Text.Utf8
import TreeDigest.CommandLine.Machine
import TreeDigest.CommandLine.Path

/-!
# A machine that is data

A disk has folders and files, and what was printed. Each folder and file is at a
place, given by the names that lead to it from the root. Paths start at the root
or at the folder in which commands are run. There are no links, all files can be
read and written, and the time cannot be seen.
-/

namespace TreeDigest.CommandLine

/-- What is at a place. -/
inductive Entry where
  | folder
  | file (octets : Bytes)

/-- Folders and files. -/
structure Files where
  /-- The place of the folder in which commands are run. -/
  home : List String
  /-- The entry of every place but the root. -/
  entries : List (List String × Entry)

namespace Files

/-- Nothing but a folder to run commands in. -/
def empty : Files := ⟨["home"], [(["home"], .folder)]⟩

/-- What is at a place, if anything is. -/
def lookup (files : Files) (place : List String) : Option Entry :=
  if place.isEmpty then some .folder
  else (files.entries.find? fun entry => entry.1 == place).map (·.2)

/-- Puts an entry at a place, instead of what is there. -/
def put (files : Files) (place : List String) (entry : Entry) : Files :=
  { files with entries := (place, entry) :: files.entries.filter fun old => old.1 != place }

/--
Follows the parts of a path from a place. All but the last lead through folders.
Above the root there is the root.
-/
def follow (files : Files) (place : List String) : List String → Except DeviceFault (List String)
  | [] => .ok place
  | part :: parts =>
    match files.lookup place with
    | none => .error .missing
    | some (.file _) => .error .notFolder
    | some .folder =>
      if part = "" ∨ part = "." then files.follow place parts
      else if part = ".." then files.follow place.dropLast parts
      else files.follow (place ++ [part]) parts

/-- The parts of a path, between separators. -/
def parts (path : String) : List String := (path.toList.splitOnP (· == '/')).map String.ofList

/-- The place at which a path with some parts starts: the root if a separator comes first. -/
def start (files : Files) : List String → List String
  | "" :: _ => []
  | _ => files.home

/-- The place that a path leads to. -/
def resolve (files : Files) (path : String) : Except DeviceFault (List String) :=
  if path.isEmpty then .error .missing
  else files.follow (files.start (parts path)) (parts path)

/-- The octets of a file. -/
def load (files : Files) (path : String) : Except DeviceFault Bytes := do
  match files.lookup (← files.resolve path) with
  | none => throw .missing
  | some .folder => throw .isFolder
  | some (.file octets) => return octets

/-- A path without the separators at its end, unless it has nothing else. -/
def untailed (path : String) : String :=
  match path.toList.reverse.dropWhile (· == '/') with
  | [] => path
  | name => String.ofList name.reverse

/--
Writes a file, whether or not it is there. A path with a separator at its end is
that of a folder, even if nothing is there.
-/
def save (files : Files) (path : String) (octets : Bytes) : Except DeviceFault Files := do
  let place ← files.resolve (untailed path)
  match files.lookup place with
  | some .folder => throw .isFolder
  | _ =>
    if (untailed path).length < path.length then throw .isFolder
    else return files.put place (.file octets)

/-- Makes the folders on the way from a place along some parts of a path. -/
def makeFolders (files : Files) (place : List String) : List String → Except DeviceFault Files
  | [] => .ok files
  | part :: parts => do
    let place ← files.follow place [part]
    match files.lookup place with
    | some .folder => files.makeFolders place parts
    | some (.file _) => throw (if parts.isEmpty then .inTheWay else .notFolder)
    | none => (files.put place .folder).makeFolders place parts

/-- Makes a folder and those above it. -/
def makeFolder (files : Files) (path : String) : Except DeviceFault Files :=
  if path.isEmpty then .ok files else files.makeFolders (files.start (parts path)) (parts path)

def isThere (files : Files) (path : String) : Bool :=
  match files.resolve path with
  | .ok place => (files.lookup place).isSome
  | .error _ => false

def isFolder (files : Files) (path : String) : Bool :=
  match files.resolve path with
  | .ok place =>
    match files.lookup place with
    | some .folder => true
    | _ => false
  | .error _ => false

/-- The names in a folder. -/
def names (files : Files) (path : String) : Except DeviceFault (List String) := do
  let folder ← files.resolve path
  return files.entries.filterMap fun (place, _) =>
    if place.dropLast == folder then place.getLast? else none

end Files

/-- Folders and files, and what was printed. -/
structure Disk extends Files where
  /-- The standard output, last part first. -/
  printed : List Bytes
  /-- The standard error output, last part first. -/
  reported : List String

namespace Disk

def empty : Disk := ⟨.empty, [], []⟩

/-- A disk with the given files, and the folders in which they are. -/
def ofFiles (files : List (String × Bytes)) : Disk :=
  let put (all : Files) : String × Bytes → Files := fun (path, octets) =>
    let made := match parent? path with
      | some folder => all.makeFolder folder
      | none => .ok all
    match made.bind fun all => all.save path octets with
    | .ok all => all
    | .error _ => all
  ⟨files.foldl put .empty, [], []⟩

/-- A change of the files that can fail, and then changes nothing. -/
def change (attempt : Files → Except DeviceFault Files) : StateM Disk (Except DeviceFault Unit) :=
  fun disk =>
    match attempt disk.toFiles with
    | .ok files => (.ok (), { disk with toFiles := files })
    | .error fault => (.error fault, disk)

end Disk

instance : Machine (StateM Disk) where
  readFile path := return (← get).load path
  writeFile path octets := Disk.change fun files => files.save path octets
  makeFolder path := Disk.change fun files => files.makeFolder path
  isThere path := return (← get).isThere path
  isFolder path := return (← get).isFolder path
  names path := return (← get).names path
  now := pure ""
  print octets := modify fun disk => { disk with printed := octets :: disk.printed }
  report text := modify fun disk => { disk with reported := text :: disk.reported }

end TreeDigest.CommandLine
