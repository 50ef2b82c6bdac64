import LzCodec.Bytes
import LzCodec.Failure

/-!
# File store

A tree of files, directories, symbolic links and devices, as a list of places and what stands there.
Paths are followed name by name. A slash at the end of a path, also of a path in a link, asks for a
directory.
-/

namespace LzCodec

/-- The names that lead to a place, the last one first. -/
abbrev Place := List String

/-- What takes bytes without keeping them. No device can be made to keep them for good. -/
inductive Device where
  /-- Takes any number of bytes. -/
  | null
  /-- Has no room for a single byte. -/
  | full
  deriving DecidableEq, Repr

inductive Node where
  | file (content : Bytes)
  | directory
  | link (target : String)
  | device (d : Device)
  deriving DecidableEq, Repr

structure FileStore where
  nodes : List (Place × Node) := []
  /-- The directory from which relative paths start. -/
  home : Place := []

/-- What a path is followed for. -/
inductive Purpose where
  /-- To find what stands at the path itself, be it a link. -/
  | look
  /-- To find where it leads. -/
  | follow
  /-- To find where it leads, and make a file there. -/
  | create
  deriving DecidableEq, Repr

namespace FileStore

/-- What stands at a place. The root is always there. -/
def find? (s : FileStore) (place : Place) : Option Node :=
  if place = [] then some .directory else s.nodes.lookup place

def erase (s : FileStore) (place : Place) : FileStore :=
  { s with nodes := s.nodes.filter fun entry => entry.1 ≠ place }

def put (s : FileStore) (place : Place) (node : Node) : FileStore :=
  { s with nodes := (place, node) :: (s.erase place).nodes }

/-- The names in a path, without an empty one for a slash at the end. -/
def properNames (path : String) : List String := (path.splitOn "/").filter (· ≠ "")

/-- The names in a path. If it ends in a slash, the last one is empty; the root alone has none. -/
def names (path : String) : List String :=
  match properNames path with
  | [] => []
  | proper => if path.endsWith "/" then proper ++ [""] else proper

/-- The most bytes in a name. -/
def maxName : Nat := 255

/-- The most bytes in a path. -/
def maxPath : Nat := 4095

/-- The most links on the way of a path. -/
def maxLinks : Nat := 40

/-- Follows names from a directory on, along at most `links` links. All but the last name must be
there. No file is made where a directory is asked for, whatever stands there. -/
def walk (s : FileStore) (purpose : Purpose) (links : Nat) (dir : Place) :
    List String → Except SystemError Place
  | [] => .ok dir
  | name :: rest =>
    if name = "" ∨ name = "." then
      walk s purpose links dir rest
    else if name = ".." then
      walk s purpose links dir.tail rest
    else if purpose = .create ∧ rest ≠ [] ∧ rest.all (· = "") then
      .error .isADirectory
    else if maxName < name.utf8ByteSize then
      .error .nameTooLong
    else
      match s.find? (name :: dir) with
      | none => if rest = [] then .ok (name :: dir) else .error .notFound
      | some .directory => walk s purpose links (name :: dir) rest
      | some (.link target) =>
        if rest = [] ∧ purpose = .look then
          .ok (name :: dir)
        else
          match links with
          | 0 => .error .tooManyLinks
          | links + 1 =>
            walk s purpose links (if target.startsWith "/" then [] else dir) (names target ++ rest)
      | some _ => if rest = [] then .ok (name :: dir) else .error .notADirectory
termination_by names => (links, names.length)

/-- Why no path reads like this, if so. -/
def pathFault? (path : String) : Option SystemError :=
  if path.toList.any (· = '\x00') then some .zeroInPath
  else if path = "" then some .notFound
  else if maxPath < path.utf8ByteSize then some .nameTooLong
  else none

/-- The place that a path leads to, by way of the given names. -/
def locate (s : FileStore) (purpose : Purpose) (path : String) (names : List String) :
    Except SystemError Place :=
  match pathFault? path with
  | some e => .error e
  | none => s.walk purpose maxLinks (if path.startsWith "/" then [] else s.home) names

def resolve (s : FileStore) (purpose : Purpose) (path : String) : Except SystemError Place :=
  s.locate purpose path (names path)

/-- The content of the file that a path leads to. Devices have none. -/
def content (s : FileStore) (path : String) : Except SystemError Bytes := do
  match s.find? (← s.resolve .follow path) with
  | none => throw .notFound
  | some .directory => throw .isADirectory
  | some (.file bytes) => return bytes
  | some _ => return #[]

/-- Makes an empty file, or empties the file that is there. -/
def createFile (s : FileStore) (path : String) : Except SystemError (Place × FileStore) := do
  let place ← s.resolve .create path
  match s.find? place with
  | some .directory => throw .isADirectory
  | some (.device _) => return (place, s)
  | _ => return (place, s.put place (.file #[]))

/-- Replaces the content of a file, for good. -/
def writeFile (s : FileStore) (place : Place) (bytes : Bytes) : Except SystemError Unit × FileStore :=
  match s.find? place with
  | some (.device d) =>
    (.error (if d = .full ∧ bytes ≠ #[] then .storageFull else .invalidArgument), s)
  | _ => (.ok (), s.put place (.file bytes))

/-- Removes what stands at the path itself, unless it is a directory. -/
def removeFile (s : FileStore) (path : String) : FileStore :=
  match s.resolve .look path with
  | .error _ => s
  | .ok place =>
    match s.find? place with
    | some .directory => s
    | _ => s.erase place

/-- What stands at the path itself. -/
def look? (s : FileStore) (path : String) : Option Node :=
  match s.resolve .look path with
  | .error _ => none
  | .ok place => s.find? place

/-- Puts something at a path where nothing is, with or without slashes at its end. -/
def add? (s : FileStore) (path : String) (node : Node) : Option FileStore :=
  match s.locate .look path (properNames path) with
  | .error _ => none
  | .ok place => if (s.find? place).isSome then none else some (s.put place node)

/-- Makes a directory where nothing is. -/
def makeDirectory? (s : FileStore) (path : String) : Option FileStore := s.add? path .directory

/-- Makes a link where nothing is. Its own path does not end in a slash. -/
def makeLink? (s : FileStore) (path target : String) : Option FileStore :=
  if path.endsWith "/" ∨ (pathFault? target).isSome then none else s.add? path (.link target)

end FileStore

end LzCodec
