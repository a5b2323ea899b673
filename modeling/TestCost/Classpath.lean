import TestCost.Class.Basic
import TestCost.FileTree
import TestCost.Log
import TestCost.Total

/-!
# Class paths

Classes are found on a list of roots, each a directory or a jar. Earlier
roots hide what later ones hold under the same name.

A directory is searched by path: what lies so deep that its path is too long
to be used is listed under its name, but neither entered nor read.
-/

namespace TestCost

/-- A place to look for classes. -/
inductive Root where
  /-- A directory with the files under it. -/
  | directory (path : String) (files : FileTree)
  | jar (path : String) (entries : List JarEntry)

namespace Root

/-- The path as it was given. -/
def path : Root → String
  | directory path _ | jar path _ => path

/-- Number of files in the root. -/
def size : Root → Nat
  | directory _ files => files.nodes.length
  | jar _ entries => entries.length

/-- The names under which a search of a directory lists what lies at the end
of more names in it. Something whose path cannot be used is taken for a file,
so the search goes no deeper. -/
def listed? (node : FileNode) (path : String) : PathParts → Option PathParts
  | [] => if node.bytes?.isSome then some [] else none
  | name :: names =>
    let here := Path.join path name
    if Path.isUsable here then (listed? node here names).map (name :: ·)
    else some [name]

/-- Names of the files in the root, with slashes. -/
def resources : Root → List String
  | directory path files => files.nodes.filterMap fun (names, node) =>
    (listed? node path names).map (String.intercalate "/")
  | jar _ entries => entries.map JarEntry.name

/-- Bytes of the file with this name; why it cannot be read if it is there
and cannot. -/
def read (r : Root) (resource : String) : Except String (Option Bytes) :=
  match r with
  | directory path files =>
    if Path.isUsable (Path.join path resource) then
      .ok (((files.resolve? resource).bind files.node?).bind FileNode.bytes?)
    else .ok none
  | jar path entries =>
    match entries.find? fun entry => entry.name == resource with
    | none => .ok none
    | some entry =>
      if entry.isCorrupt then .error (path ++ ": Invalid checksum")
      else .ok (some entry.content)

end Root

/-- A root that cannot be searched. -/
inductive RootFault where
  /-- The entry is a file that cannot be read as a jar. -/
  | notAJar (entry : String)

def RootFault.message : RootFault → String
  | notAJar entry => "failed to read " ++ entry

/-- Roots in the order in which they are searched. -/
structure Classpath where
  roots : List Root := []

namespace Classpath

/-- The entries of class path values, each a list that colons separate. -/
def splitEntries (values : List String) : List String :=
  (values.flatMap (Text.splitOn ':')).filter fun entry => entry ≠ ""

/-- The root at an entry: `none` when nothing is there, a fault when it is a
file that is no jar. -/
def openRoot (files : FileTree) (entry : String) :
    Except RootFault (Option Root) :=
  match files.resolve? entry with
  | none => .ok none
  | some path =>
    if files.isDirectory path then
      .ok (some (.directory entry (files.under path)))
    else
      match files.node? path with
      | some (.jar entries) => .ok (some (.jar entry entries))
      | some (.file _) => .error (.notAJar entry)
      | _ => .ok none

/-- The roots at all entries. An entry that is not there is left out and
told of. -/
def openAll (files : FileTree) :
    List String → Except RootFault (Classpath × List LogEvent)
  | [] => .ok ({}, [])
  | entry :: entries => do
    let root ← openRoot files entry
    let (rest, log) ← openAll files entries
    match root with
    | some root => return ({ roots := root :: rest.roots }, log)
    | none => return (rest, .rootMissing entry :: log)

/-- Ending of the names of class files. -/
def classSuffix : String := ".class"

/-- The dotted name of the class in a file; descriptions of modules and
packages are not classes. -/
def className? (resource : String) : Option String :=
  match Text.withoutEnding? resource classSuffix with
  | none => none
  | some stem =>
    if Text.endsWith stem "module-info" ||
      Text.endsWith stem "package-info" then none
    else some (ClassName.dotted stem)

/-- Names in ascending order, each once. -/
def sortedNames (names : List String) : List String :=
  (names.mergeSort fun a b => !decide (b < a)).foldr (fun name rest =>
    if rest.head? = some name then rest else name :: rest) []

/-- Names of all classes that start with one of the prefixes; without
prefixes, of all classes. -/
def classNames (c : Classpath) (starts : List String) : List String :=
  let starts := starts.map ClassName.dotted
  let names := c.roots.flatMap fun root => root.resources.filterMap className?
  sortedNames (names.filter fun name =>
    starts.isEmpty || starts.any (Text.startsWith name))

/-- The file that a class is looked for in. -/
def resourceOf (name : String) : String := ClassName.slashed name ++ classSuffix

/-- Bytes of the class with this name, from the first root that has it. -/
def read (c : Classpath) (name : String) : Except LoadFault (Option Bytes) :=
  go c.roots
where
  go : List Root → Except LoadFault (Option Bytes)
    | [] => .ok none
    | root :: roots =>
      match root.read (resourceOf name) with
      | .ok none => go roots
      | .ok (some bytes) => .ok (some bytes)
      | .error why => .error (.unreadable name why)

/-- Number of files on all roots. -/
def size (c : Classpath) : Nat := total (c.roots.map Root.size)

end Classpath

end TestCost
