import TestCost.ClassFile.Reader
import TestCost.Text.Parts

/-!
# Files

The files that a run can see are given as a value, a `FileTree`, so that
finding classes is a function of it. A place is the list of names that lead
to it from the directory of the run; a directory exists when it is listed or
when something lies under it.

A path is text, and it leads to a place only if the file system takes it:
neither the path nor a name in it may be too long. Above the directory of the
run there are directories too, but nothing in them can be seen.
-/

namespace TestCost

/-- A file inside a jar. -/
structure JarEntry where
  name : String
  content : Bytes
  /-- The content does not match its checksum and cannot be read. -/
  isCorrupt : Bool := false

/-- What lies at a place. -/
inductive FileNode where
  | directory
  | file (content : Bytes)
  | jar (entries : List JarEntry)

/-- The bytes with which a jar begins when it is read as a plain file: the
mark of an entry, or for a jar without entries the record that ends it. -/
def JarEntry.archiveOpening : List JarEntry → Bytes
  | [] => #[0x50, 0x4b, 0x05, 0x06] ++ Array.replicate 18 0
  | _ :: _ => #[0x50, 0x4b, 0x03, 0x04]

/-- The bytes that are read at a place; a directory has none. -/
def FileNode.bytes? : FileNode → Option Bytes
  | directory => none
  | file content => some content
  | jar entries => some (JarEntry.archiveOpening entries)

namespace Path

/-- The most bytes that a path can have. -/
def longestPath : Nat := 4095

/-- The most bytes that a name in a path can have. -/
def longestName : Nat := 255

/-- The file system takes a path: it is not too long, and no zero character
ends it early. -/
def isUsable (path : String) : Bool :=
  Text.byteLength path ≤ longestPath && !path.toList.contains '\x00'

/-- The path of something in a directory. A path from the root of the file
system stands for itself. -/
def join (directory file : String) : String :=
  if Text.startsWith file "/" then file
  else if Text.endsWith directory "/" then directory ++ file
  else directory ++ "/" ++ file

end Path

/-- A place as the names that lead to it. -/
abbrev PathParts := List String

namespace PathParts

/-- The directory that holds a place. Above the directory of the run only
the way up is known, and the root of the file system is its own parent. -/
def parent (place : PathParts) : PathParts :=
  match place.getLast? with
  | none | some ".." => place ++ [".."]
  | some "/" => place
  | some _ => place.dropLast

/-- The place that a part of a path leads to from a place. Empty and `.`
parts stay where they are, and `..` goes up. -/
def step (place : PathParts) (part : String) : PathParts :=
  if part = "" ∨ part = "." then place
  else if part = ".." then place.parent
  else place ++ [part]

/-- Where a path starts: at the root of the file system, which has a part of
its own, or in the directory of the run. -/
def start (path : String) : PathParts :=
  if Text.startsWith path "/" then ["/"] else []

/-- The place that a path leads to when everything on its way is a
directory. -/
def ofText (path : String) : PathParts :=
  (Text.splitOn '/' path).foldl step (start path)

/-- The place is the directory of the run, one above it or the root of the
file system: these are always there. -/
def isFixed (place : PathParts) : Bool :=
  place.all (· == "..") || place == ["/"]

end PathParts

/-- The files that a run can see, by place. -/
structure FileTree where
  nodes : List (PathParts × FileNode)

namespace FileTree

/-- What lies at a place, unless it is a directory that is not listed. -/
def node? (t : FileTree) (place : PathParts) : Option FileNode :=
  t.nodes.lookup place

/-- Something lies under the place. -/
def hasUnder (t : FileTree) (place : PathParts) : Bool :=
  t.nodes.any fun (p, _) => place.isPrefixOf p && place.length < p.length

/-- The place is a directory. -/
def isDirectory (t : FileTree) (place : PathParts) : Bool :=
  place.isFixed || t.hasUnder place ||
    match t.node? place with
    | some .directory => true
    | _ => false

/-- The place that a path leads to, whether something lies there or not.
Every part but the first is looked for in a directory, so a path through
something else leads nowhere. -/
def resolve? (t : FileTree) (path : String) : Option PathParts :=
  if Path.isUsable path then
    (Text.splitOn '/' path).foldlM (fun place part =>
      if t.isDirectory place then some (place.step part)
      else none) (PathParts.start path)
  else none

/-- What lies under a place, by the rest of its names. -/
def under (t : FileTree) (place : PathParts) : FileTree :=
  { nodes := t.nodes.filterMap fun (p, node) =>
      if place.isPrefixOf p then some (p.drop place.length, node) else none }

/-- A file can be made at a path: the directory it goes into exists, no
directory has its name, and the name is not too long. -/
def canCreate (t : FileTree) (path : String) : Bool :=
  match t.resolve? path with
  | none => false
  | some place =>
    !t.isDirectory place && place.all fun name => Text.byteLength name ≤
      Path.longestName

end FileTree

end TestCost
