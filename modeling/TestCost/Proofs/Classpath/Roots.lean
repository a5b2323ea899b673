import Mathlib
import TestCost.Classpath
import TestCost.Proofs.Repository

/-!
# Files of roots

A root is searched in two ways: `Root.resources` lists the names of all its
files, and `Root.read` goes from a name to the file. Both are compared with what
the root holds (`Root.Holds`), which is read off the entries of a jar, or off
the places of the files in a directory.

In a directory the first way writes a place as a path and the second takes a
path apart again. The two are inverse as long as names are what a file system
has for names, and the path has no parts that stand for something else than a
name: empty ones, `.` and `..`. A path that cannot be used leads nowhere, and it
is listed where it stops, so every path of the directory has to be usable.

## Main results

* `FileTree.Sound.resolve?_iff` — a plain path leads to what lies at its parts.
* `Root.mem_resources_iff` — what a readable root lists is what it holds.
* `Root.read_of_takes` — what is read from a readable root is what it holds.
-/

namespace TestCost

/-! ## Texts and their parts -/

namespace Text

theorem splitChars_eq_splitOn (separator : Char) (text : List Char) :
    splitChars separator text = text.splitOn separator := by
  induction text with
  | nil => simp [splitChars]
  | cons c rest ih =>
      rw [splitChars, List.splitOn_cons_eq_if_modifyHead, ih]
      by_cases hc : c = separator
      · simp [hc]
      · have hparts : rest.splitOn separator ≠ [] := List.splitOn_ne_nil _ _
        cases hrest : rest.splitOn separator with
        | nil => exact absurd hrest hparts
        | cons part parts => simp [hc]

/-- A path has the names that it was made of as its parts. -/
theorem splitOn_intercalate {names : List String} (hne : names ≠ [])
    (hnames : ∀ name ∈ names, '/' ∉ name.toList) :
    splitOn '/' (String.intercalate "/" names) = names := by
  have hparts : ∀ part ∈ names.map String.toList, '/' ∉ part := by
    intro part hpart
    obtain ⟨name, hname, rfl⟩ := List.mem_map.1 hpart
    exact hnames name hname
  rw [splitOn, splitChars_eq_splitOn, String.toList_intercalate]
  rw [show "/".toList = ['/'] from rfl,
    List.splitOn_intercalate '/' hparts (by simpa using hne)]
  simp [Function.comp_def]

theorem intercalate_splitOn (text : String) :
    String.intercalate "/" (splitOn '/' text) = text := by
  rw [← String.toList_inj, String.toList_intercalate, splitOn,
    splitChars_eq_splitOn, List.map_map]
  rw [show "/".toList = ['/'] from rfl]
  simp [Function.comp_def, List.intercalate_splitOn]

theorem startsWith_iff (text start : String) :
    startsWith text start = true ↔ start.toList <+: text.toList :=
  List.isPrefixOf_iff_prefix

theorem endsWith_iff (text ending : String) :
    endsWith text ending = true ↔ ending.toList <:+ text.toList :=
  List.isSuffixOf_iff_suffix

theorem byteLength_append (first second : String) :
    byteLength (first ++ second) = byteLength first + byteLength second := by
  simp [byteLength]

end Text

/-! ## Paths -/

namespace Path

/-- What a file system has for a name. -/
def IsName (name : String) : Prop := name ≠ "" ∧ '/' ∉ name.toList

instance (name : String) : Decidable (IsName name) :=
  inferInstanceAs (Decidable (name ≠ "" ∧ '/' ∉ name.toList))

/-- Every part of the path is a name to go on with. -/
def IsPlain (path : String) : Prop :=
  ∀ part ∈ Text.splitOn '/' path, part ≠ "" ∧ part ≠ "." ∧ part ≠ ".."

/-- What a path is put together from can be used if the path can. -/
theorem isUsable_append {first second : String}
    (h : isUsable (first ++ second) = true) :
    isUsable first = true ∧ isUsable second = true := by
  simp only [isUsable, Text.byteLength_append, Bool.and_eq_true,
    decide_eq_true_eq, Bool.not_eq_true', List.contains_eq_mem,
    String.toList_append, List.mem_append, decide_eq_false_iff_not,
    not_or] at h ⊢
  exact ⟨⟨by omega, h.2.1⟩, by omega, h.2.2⟩

theorem startsWith_slash_eq_false {text : String}
    (h : text.toList.head? ≠ some '/') :
    Text.startsWith text "/" = false := by
  rw [Bool.eq_false_iff, ne_eq, Text.startsWith_iff]
  rintro ⟨rest, hrest⟩
  rw [← hrest] at h
  exact h rfl

theorem endsWith_slash_eq_false {text : String}
    (h : text.toList.getLast? ≠ some '/') :
    Text.endsWith text "/" = false := by
  rw [Bool.eq_false_iff, ne_eq, Text.endsWith_iff]
  rintro ⟨rest, hrest⟩
  rw [← hrest] at h
  exact h (by simp)

theorem IsName.toList_ne_nil {name : String} (h : IsName name) :
    name.toList ≠ [] := by
  intro hnil
  exact h.1 (by rw [← String.toList_inj, hnil]; rfl)

/-- A path of names does not start with a slash. -/
theorem startsWith_intercalate {names : List String} (hne : names ≠ [])
    (hnames : ∀ name ∈ names, IsName name) :
    Text.startsWith (String.intercalate "/" names) "/" = false := by
  obtain ⟨name, names, rfl⟩ := List.exists_cons_of_ne_nil hne
  have hname := hnames name List.mem_cons_self
  obtain ⟨c, rest, hc⟩ := List.exists_cons_of_ne_nil hname.toList_ne_nil
  apply startsWith_slash_eq_false
  have hhead :
      (String.intercalate "/" (name :: names)).toList.head? = some c := by
    cases names with
    | nil => rw [String.intercalate_singleton, hc]; rfl
    | cons other names =>
        rw [String.intercalate_cons_cons, String.toList_append,
          String.toList_append, hc]
        rfl
  rw [hhead]
  intro hslash
  exact hname.2 (by rw [hc, Option.some.inj hslash]; exact List.mem_cons_self)

/-- A plain path does not start at the root of the file system. -/
theorem IsPlain.startsWith_eq_false {path : String} (h : IsPlain path) :
    Text.startsWith path "/" = false := by
  apply startsWith_slash_eq_false
  intro hhead
  obtain ⟨rest, hrest⟩ := List.head?_eq_some_iff.1 hhead
  have hempty : "" ∈ Text.splitOn '/' path := by
    rw [Text.splitOn, hrest, Text.splitChars, if_pos rfl]
    exact List.mem_cons_self
  exact (h "" hempty).1 rfl

/-- A plain path has names. -/
theorem IsPlain.names_ne_nil {names : List String}
    (h : IsPlain (String.intercalate "/" names)) :
    names ≠ [] := by
  rintro rfl
  exact (h "" (by decide)).1 rfl

theorem join_of_not_startsWith {file : String}
    (h : Text.startsWith file "/" = false) (directory : String) :
    join directory file =
      (if Text.endsWith directory "/" then directory else directory ++ "/") ++
        file := by
  rw [join, if_neg (by simp [h])]
  split <;> rfl

theorem isUsable_join
    {directory file : String} (hfile : Text.startsWith file "/" = false)
    (h : isUsable (join directory file) = true) :
    isUsable directory = true ∧ isUsable file = true := by
  rw [join_of_not_startsWith hfile] at h
  obtain ⟨hdirectory, husable⟩ := isUsable_append h
  split at hdirectory
  · exact ⟨hdirectory, husable⟩
  · exact ⟨(isUsable_append hdirectory).1, husable⟩

theorem IsName.startsWith_eq_false {name : String} (h : IsName name) :
    Text.startsWith name "/" = false := by
  have hone :=
    startsWith_intercalate (List.cons_ne_nil name []) (by simpa using h)
  rwa [String.intercalate_singleton] at hone

theorem IsName.endsWith_join_eq_false {name : String} (h : IsName name)
    (directory : String) :
    Text.endsWith (join directory name) "/" = false := by
  apply endsWith_slash_eq_false
  rw [join_of_not_startsWith h.startsWith_eq_false, String.toList_append,
    List.getLast?_append_of_ne_nil _ h.toList_ne_nil]
  intro hlast
  exact h.2 (List.mem_of_getLast? hlast)

/-- Going down name by name or along the whole path is the same. -/
theorem foldl_join {names : List String} (hne : names ≠ [])
    (hnames : ∀ name ∈ names, IsName name) (directory : String) :
    names.foldl join directory =
      join directory (String.intercalate "/" names) := by
  induction names generalizing directory with
  | nil => exact absurd rfl hne
  | cons name names ih =>
      have hname := hnames name List.mem_cons_self
      have hrest : ∀ other ∈ names, IsName other := fun other hother =>
        hnames other (List.mem_cons_of_mem _ hother)
      cases names with
      | nil => rw [String.intercalate_singleton]; rfl
      | cons other names =>
          have hstart := startsWith_intercalate hne hnames
          rw [List.foldl_cons, ih (List.cons_ne_nil _ _) hrest,
            join_of_not_startsWith
              (startsWith_intercalate (List.cons_ne_nil _ _) hrest),
            hname.endsWith_join_eq_false,
            join_of_not_startsWith hname.startsWith_eq_false,
            join_of_not_startsWith hstart, String.intercalate_cons_cons]
          simp [String.append_assoc]

/-- Where a longer way can be used, a shorter one can. -/
theorem isUsable_of_foldl {names : List String}
    (hnames : ∀ name ∈ names, IsName name) {directory : String}
    (h : isUsable (names.foldl join directory) = true) :
    isUsable directory = true := by
  induction names generalizing directory with
  | nil => exact h
  | cons name names ih =>
      have hname := hnames name List.mem_cons_self
      have hhere : isUsable (join directory name) = true :=
        ih (fun other hother => hnames other (List.mem_cons_of_mem _ hother)) h
      exact (isUsable_join hname.startsWith_eq_false hhere).1

end Path

/-! ## Files in a directory -/

namespace FileTree

/-- A tree as a file system has it. -/
structure Sound (t : FileTree) : Prop where
  names : ∀ p ∈ t.nodes, ∀ name ∈ p.1, Path.IsName name
  /-- One thing lies at a place. -/
  once : (t.nodes.map Prod.fst).Nodup

instance (t : FileTree) : Decidable t.Sound :=
  decidable_of_iff ((∀ p ∈ t.nodes, ∀ name ∈ p.1, Path.IsName name) ∧
    (t.nodes.map Prod.fst).Nodup) ⟨fun h => ⟨h.1, h.2⟩, fun h =>
    ⟨h.names, h.once⟩⟩

variable {t : FileTree}

theorem Sound.node?_iff (h : t.Sound) (place : PathParts) (node : FileNode) :
    t.node? place = some node ↔ (place, node) ∈ t.nodes := by
  refine ⟨mem_of_lookup, ?_⟩
  intro hmem
  obtain ⟨before, after, hnodes⟩ := List.append_of_mem hmem
  have honce := h.once
  rw [hnodes, List.map_append, List.map_cons] at honce
  rw [node?, hnodes]
  refine List.lookup_eq_some_iff.2 ⟨before, after, rfl, ?_⟩
  intro p hp
  have hne := (List.nodup_append.1 honce).2.2 p.1 (List.mem_map_of_mem hp) place
    List.mem_cons_self
  simpa using hne.symm

/-- Something lies under the place. -/
theorem isDirectory_of_mem {place rest : PathParts} {node : FileNode}
    (hrest : rest ≠ []) (h : (place ++ rest, node) ∈ t.nodes) :
    t.isDirectory place = true := by
  have hunder : t.hasUnder place = true := by
    refine List.any_eq_true.2 ⟨_, h, ?_⟩
    have hlength := List.length_pos_iff.2 hrest
    simp [hlength]
  simp [isDirectory, hunder]

/-- Names lead down. -/
theorem step_of_plain {part : String} (h : part ≠ "" ∧ part ≠ "." ∧ part ≠ "..")
    (place : PathParts) :
    place.step part = place ++ [part] := by
  simp [PathParts.step, h]

/-- Where plain parts lead, if they lead anywhere. -/
theorem eq_append_of_foldlM {parts : List String}
    (hplain : ∀ part ∈ parts, part ≠ "" ∧ part ≠ "." ∧ part ≠ "..")
    {place target : PathParts}
    (h : parts.foldlM (fun place part => if t.isDirectory place then
      some (place.step part) else none) place = some target) :
    target = place ++ parts := by
  induction parts generalizing place with
  | nil =>
      rw [List.foldlM_nil] at h
      rw [List.append_nil]
      exact (Option.some.inj h).symm
  | cons part parts ih =>
      rw [List.foldlM_cons] at h
      split at h
      · rw [step_of_plain (hplain part List.mem_cons_self)] at h
        have htarget := ih (fun other hother =>
          hplain other (List.mem_cons_of_mem _ hother)) h
        rw [htarget, List.append_assoc, List.singleton_append]
      · cases h

/-- Plain parts lead to whatever lies at them. -/
theorem foldlM_of_mem {parts : List String}
    (hplain : ∀ part ∈ parts, part ≠ "" ∧ part ≠ "." ∧ part ≠ "..")
    {place : PathParts} {node : FileNode}
    (h : (place ++ parts, node) ∈ t.nodes) :
    parts.foldlM (fun place part =>
      if t.isDirectory place then some (place.step part)
        else none) place = some (place ++ parts) := by
  induction parts generalizing place with
  | nil =>
      rw [List.foldlM_nil, List.append_nil]
      rfl
  | cons part parts ih =>
      rw [List.foldlM_cons,
        if_pos (isDirectory_of_mem (List.cons_ne_nil _ _) h),
        step_of_plain (hplain part List.mem_cons_self)]
      have hrest : (place ++ [part] ++ parts, node) ∈ t.nodes := by
        rwa [List.append_assoc, List.singleton_append]
      have hnext := ih (fun other hother =>
        hplain other (List.mem_cons_of_mem _ hother)) hrest
      rw [List.append_assoc, List.singleton_append] at hnext
      exact hnext

/-- A plain path leads to what lies at its parts. -/
theorem Sound.resolve?_iff (h : t.Sound) {path : String}
    (hplain : Path.IsPlain path) (husable : Path.isUsable path = true)
    (node : FileNode) :
    (t.resolve? path).bind t.node? = some node ↔
      (Text.splitOn '/' path, node) ∈ t.nodes := by
  have hstart : PathParts.start path = [] := by
    simp [PathParts.start, hplain.startsWith_eq_false]
  rw [resolve?, if_pos husable, hstart]
  constructor
  · intro hfound
    obtain ⟨place, hplace, hnode⟩ := Option.bind_eq_some_iff.1 hfound
    have hparts := eq_append_of_foldlM hplain hplace
    rw [List.nil_append] at hparts
    rw [← hparts]
    exact (h.node?_iff place node).1 hnode
  · intro hmem
    have hplace : ([] ++ Text.splitOn '/' path, node) ∈ t.nodes := hmem
    rw [foldlM_of_mem hplain hplace]
    exact (h.node?_iff _ node).2 hmem

end FileTree

/-! ## Roots -/

namespace Root

/-- The root holds a file with this name and these bytes. -/
def Holds : Root → String → Bytes → Prop
  | directory _ files, resource, bytes =>
    ∃ p ∈ files.nodes, p.2.bytes? = some bytes ∧
      String.intercalate "/" p.1 = resource
  | jar _ entries, resource, bytes =>
    ∃ entry ∈ entries, entry.content = bytes ∧ entry.name = resource

/-- All of the root can be read: in a directory every path can be used, and in a
jar names are distinct and no entry is corrupt. -/
def Readable : Root → Prop
  | directory path files =>
    files.Sound ∧
      ∀ p ∈ files.nodes, Path.isUsable (p.1.foldl Path.join path) = true
  | jar _ entries =>
    (entries.map JarEntry.name).Nodup ∧
      ∀ entry ∈ entries, entry.isCorrupt = false

instance : (r : Root) → Decidable r.Readable
  | directory path files =>
    inferInstanceAs (Decidable (files.Sound ∧
      ∀ p ∈ files.nodes, Path.isUsable (p.1.foldl Path.join path) = true))
  | jar _ entries =>
    inferInstanceAs (Decidable ((entries.map JarEntry.name).Nodup ∧
      ∀ entry ∈ entries, entry.isCorrupt = false))

/-- The root takes the name as it is written. A jar takes all names so, a
directory those that are plain paths. -/
def Takes : Root → String → Prop
  | directory _ _, resource => Path.IsPlain resource
  | jar _ _, _ => True

/-- Where paths can be used, all files are listed, by their names. -/
theorem listed?_of_isUsable {node : FileNode} {names : List String}
    (hnames : ∀ name ∈ names, Path.IsName name) {path : String}
    (husable : Path.isUsable (names.foldl Path.join path) = true) :
    listed? node path names = if node.bytes?.isSome then some names
      else none := by
  induction names generalizing path with
  | nil => rfl
  | cons name names ih =>
      have hrest : ∀ other ∈ names, Path.IsName other := fun other hother =>
        hnames other (List.mem_cons_of_mem _ hother)
      have hhere : Path.isUsable (Path.join path name) = true :=
        Path.isUsable_of_foldl hrest husable
      rw [listed?, if_pos hhere, ih hrest husable]
      split <;> rfl

/-- A readable root lists what it holds. -/
theorem mem_resources_iff {r : Root} (h : r.Readable) (resource : String) :
    resource ∈ r.resources ↔ ∃ bytes, r.Holds resource bytes := by
  cases r with
  | directory path files =>
      obtain ⟨hsound, husable⟩ := h
      rw [resources, List.mem_filterMap]
      constructor
      · rintro ⟨⟨names, node⟩, hp, hlisted⟩
        dsimp only at hlisted
        rw [listed?_of_isUsable (hsound.names _ hp) (husable _ hp)] at hlisted
        split at hlisted
        · next hbytes =>
          obtain ⟨bytes, hbytes⟩ := Option.isSome_iff_exists.1 hbytes
          exact ⟨bytes, _, hp, hbytes, Option.some.inj hlisted⟩
        · cases hlisted
      · rintro ⟨bytes, ⟨names, node⟩, hp, hbytes, hresource⟩
        refine ⟨(names, node), hp, ?_⟩
        dsimp only at hbytes ⊢
        rw [listed?_of_isUsable (hsound.names _ hp) (husable _ hp), hbytes]
        exact congrArg some hresource
  | jar path entries =>
      rw [resources, List.mem_map]
      constructor
      · rintro ⟨entry, hentry, hname⟩
        exact ⟨entry.content, entry, hentry, rfl, hname⟩
      · rintro ⟨_, entry, hentry, _, hname⟩
        exact ⟨entry, hentry, hname⟩

/-- A file that a directory holds has a path that can be used. -/
theorem isUsable_of_holds
    {path : String} {files : FileTree} (h : (directory path files).Readable)
    {resource : String} (hplain : Path.IsPlain resource) {bytes : Bytes}
    (hholds : (directory path files).Holds resource bytes) :
    Path.isUsable (Path.join path resource) = true := by
  obtain ⟨p, hp, _, rfl⟩ := hholds
  rw [← Path.foldl_join hplain.names_ne_nil (h.1.names p hp)]
  exact h.2 p hp

/-- A file that a directory holds under a plain path lies at the parts of the
path. -/
theorem holds_iff_mem {path : String} {files : FileTree} (hsound : files.Sound)
    {resource : String} (hplain : Path.IsPlain resource) (bytes : Bytes) :
    (directory path files).Holds resource bytes ↔
      ∃ node, (Text.splitOn '/' resource, node) ∈ files.nodes ∧ node.bytes? =
        some bytes := by
  constructor
  · rintro ⟨p, hp, hbytes, rfl⟩
    refine ⟨p.2, ?_, hbytes⟩
    rw [Text.splitOn_intercalate hplain.names_ne_nil fun name hname =>
      (hsound.names p hp name hname).2]
    exact hp
  · rintro ⟨node, hnode, hbytes⟩
    exact ⟨_, hnode, hbytes, Text.intercalate_splitOn resource⟩

/-- What is read from a readable root is what it holds. -/
theorem read_of_takes {r : Root} (h : r.Readable) {resource : String}
    (htakes : r.Takes resource) :
    ∃ found, r.read resource = .ok found ∧ ∀ bytes, found = some bytes ↔
      r.Holds resource bytes := by
  cases r with
  | directory path files =>
      rw [read]
      by_cases husable : Path.isUsable (Path.join path resource) = true
      · rw [if_pos husable]
        refine ⟨_, rfl, ?_⟩
        intro bytes
        have hpath := (Path.isUsable_join htakes.startsWith_eq_false husable).2
        have hresolve := h.1.resolve?_iff htakes hpath
        rw [holds_iff_mem h.1 htakes, Option.bind_eq_some_iff]
        simp only [hresolve]
      · rw [if_neg husable]
        refine ⟨none, rfl, ?_⟩
        intro bytes
        exact ⟨(by simp), fun hholds =>
          absurd (isUsable_of_holds h htakes hholds) husable⟩
  | jar path entries =>
      obtain ⟨hnames, hsafe⟩ := h
      rw [read]
      cases hfind : entries.find? fun entry => entry.name == resource with
      | none =>
          refine ⟨none, rfl, ?_⟩
          intro bytes
          refine ⟨(by simp), ?_⟩
          rintro ⟨entry, hentry, _, hname⟩
          exact absurd (beq_iff_eq.2 hname)
            (List.find?_eq_none.1 hfind entry hentry)
      | some entry =>
          have hentry := List.mem_of_find?_eq_some hfind
          have hname : entry.name = resource := by
            simpa using List.find?_some hfind
          refine ⟨some entry.content, by simp [hsafe entry hentry], ?_⟩
          intro bytes
          constructor
          · intro hbytes
            exact ⟨entry, hentry, Option.some.inj hbytes, hname⟩
          · rintro ⟨other, hother, rfl, hsame⟩
            rw [List.inj_on_of_nodup_map hnames hentry hother
              (hname.trans hsame.symm)]

end Root

end TestCost
