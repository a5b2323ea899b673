import Mathlib
import TestCost.Proofs.Classpath.Roots

/-!
# Finding classes and reading them

Classes are found by listing the files of all roots and turning the name of each
into the name of a class, and a class is read by turning its name into the name
of a file. The first way writes dots for slashes and the second slashes for
dots, so the two are inverse only where there were no dots before. A file with a
dot on its path, besides that of its ending, is found under a name that leads
elsewhere or nowhere (`found_but_not_read`).

Apart from these the two agree. A class has one path without dots, the one that
it is looked for in, and what is read is what the first root holds there. A
directory passes over empty names on a path where a jar takes the path as it is
written, so that a name with an empty part may lead to another file in a
directory.

## Main results

* `sortedNames_spec` — sorting names and leaving out repetitions.
* `mem_classNames_iff` — which classes are found.
* `read_roots` — what is read for the name of a class.
* `discovery_agrees_with_lookup` — both together.
-/

namespace TestCost

/-! ## Characters in place of others -/

namespace Text

variable {old new : Char} {text : List Char}

theorem old_not_mem_replace (hne : old ≠ new) (text : List Char) :
    old ∉ text.map fun c => if c = old then new else c := by
  rw [List.mem_map]
  rintro ⟨c, _, hc⟩
  by_cases hold : c = old
  · rw [if_pos hold] at hc
    exact hne hc.symm
  · rw [if_neg hold] at hc
    exact hold hc

/-- A replacement can be undone in a text that did not have the new character.
-/
theorem replace_replace (h : new ∉ text) :
    (text.map fun c => if c = old then new else c).map (fun c => if c = new then
      old else c) =
      text := by
  rw [List.map_map]
  refine (List.map_congr_left ?_).trans (List.map_id _)
  intro c hc
  have hnew : c ≠ new := fun hnew => h (hnew ▸ hc)
  by_cases hold : c = old <;> simp [hold, hnew]

/-- A replacement makes no ending that does not have the new character. -/
theorem suffix_of_suffix_replace {ending : List Char} (hnew : new ∉ ending)
    (h : ending <:+ text.map fun c => if c = old then new else c) :
    ending <:+ text := by
  obtain ⟨start, hstart⟩ := h
  obtain ⟨front, back, rfl, _, hback⟩ := List.map_eq_append_iff.1 hstart.symm
  have hsame : back.map (fun c => if c = old then new else c) = back := by
    refine (List.map_congr_left ?_).trans (List.map_id _)
    intro c hc
    by_cases hold : c = old
    · have hmem : new ∈ ending := hback ▸ List.mem_map.2 ⟨c, hc, if_pos hold⟩
      exact absurd hmem hnew
    · simp [hold]
  rw [← hback, hsame]
  exact List.suffix_append front back

end Text

/-! ## Names of classes and their files -/

namespace ClassName

theorem toList_dotted (name : String) :
    (dotted name).toList = name.toList.map fun c => if c = '/' then
      '.' else c :=
  String.toList_ofList

theorem toList_slashed (name : String) :
    (slashed name).toList = name.toList.map fun c => if c = '.' then
      '/' else c :=
  String.toList_ofList

theorem slashed_dotted {stem : String} (h : '.' ∉ stem.toList) :
    slashed (dotted stem) = stem := by
  rw [← String.toList_inj, toList_slashed, toList_dotted]
  exact Text.replace_replace h

theorem dotted_slashed {name : String} (h : '/' ∉ name.toList) :
    dotted (slashed name) = name := by
  rw [← String.toList_inj, toList_dotted, toList_slashed]
  exact Text.replace_replace h

theorem slash_not_mem_dotted (name : String) : '/' ∉ (dotted name).toList := by
  rw [toList_dotted]
  exact Text.old_not_mem_replace (by decide) _

theorem dot_not_mem_slashed (name : String) : '.' ∉ (slashed name).toList := by
  rw [toList_slashed]
  exact Text.old_not_mem_replace (by decide) _

end ClassName

namespace Text

theorem withoutEnding?_eq_some_iff (text ending stem : String) :
    withoutEnding? text ending = some stem ↔ text = stem ++ ending := by
  unfold withoutEnding?
  constructor
  · intro h
    split at h
    · next hends =>
      obtain ⟨front, hfront⟩ := (endsWith_iff text ending).1 hends
      rw [← Option.some.inj h, ← String.toList_inj, ← hfront,
        String.toList_append]
      simp
    · cases h
  · rintro rfl
    have hends : endsWith (stem ++ ending) ending = true := by
      rw [endsWith_iff, String.toList_append]
      exact List.suffix_append _ _
    rw [if_pos hends]
    simp

end Text

namespace Classpath

/-- A file with this stem is the file of the class with this name. -/
structure Names (stem name : String) : Prop where
  notModule : ¬ "module-info".toList <:+ stem.toList
  notPackage : ¬ "package-info".toList <:+ stem.toList
  dotted : ClassName.dotted stem = name

theorem className?_eq_some_iff (resource name : String) :
    className? resource = some name ↔ ∃ stem,
      resource = stem ++ classSuffix ∧ Names stem name := by
  unfold className?
  constructor
  · intro h
    split at h
    · cases h
    · next stem hstem =>
      refine ⟨stem, (Text.withoutEnding?_eq_some_iff _ _ _).1 hstem, ?_⟩
      split at h
      · cases h
      · next hinfo =>
        rw [Bool.or_eq_true, Text.endsWith_iff, Text.endsWith_iff,
          not_or] at hinfo
        exact ⟨hinfo.1, hinfo.2, Option.some.inj h⟩
  · rintro ⟨stem, hresource, hnames⟩
    rw [(Text.withoutEnding?_eq_some_iff _ _ _).2 hresource]
    have hinfo : ¬ (Text.endsWith stem "module-info" ||
        Text.endsWith stem "package-info") = true := by
      rw [Bool.or_eq_true, Text.endsWith_iff, Text.endsWith_iff, not_or]
      exact ⟨hnames.notModule, hnames.notPackage⟩
    dsimp only
    rw [if_neg hinfo, hnames.dotted]

/-- The file that a class is looked for in has the name of the class, if any
file has. -/
theorem Names.slashed {stem name : String} (h : Names stem name) :
    Names (ClassName.slashed name) name := by
  have hback : ∀ ending : List Char, '.' ∉ ending → '/' ∉ ending →
      ending <:+ (ClassName.slashed name).toList → ending <:+ stem.toList := by
    intro ending hdot hslash hsuffix
    rw [ClassName.toList_slashed, ← h.dotted,
      ClassName.toList_dotted] at hsuffix
    exact Text.suffix_of_suffix_replace hdot
      (Text.suffix_of_suffix_replace hslash hsuffix)
  refine ⟨fun hmodule => h.notModule ?_, fun hpackage => h.notPackage ?_, ?_⟩
  · exact hback _ (by decide) (by decide) hmodule
  · exact hback _ (by decide) (by decide) hpackage
  · exact ClassName.dotted_slashed
      (h.dotted ▸ ClassName.slash_not_mem_dotted stem)

/-- Without a dot, the stem of a file is where its class is looked for. -/
theorem Names.resourceOf_eq {stem name : String} (h : Names stem name)
    (hdot : '.' ∉ stem.toList) :
    resourceOf name = stem ++ classSuffix := by
  rw [resourceOf, ← h.dotted, ClassName.slashed_dotted hdot]

/-! ## Listing classes -/

/-- Leaving out repetitions from a sorted list. -/
theorem pairwise_unrepeated {names : List String} (h : names.Pairwise (· ≤ ·)) :
    (names.foldr (fun name rest => if rest.head? = some name then rest
      else name :: rest)
        []).Pairwise (· < ·) ∧
      ∀ n, n ∈ names.foldr (fun name rest =>
        if rest.head? = some name then rest
          else name :: rest) [] ↔ n ∈ names := by
  induction names with
  | nil => simp
  | cons name names ih =>
      obtain ⟨hleast, hrest⟩ := List.pairwise_cons.1 h
      obtain ⟨hstrict, hmem⟩ := ih hrest
      rw [List.foldr_cons]
      generalize names.foldr (fun name rest => if rest.head? = some name then
        rest else name :: rest) [] = kept at hstrict hmem
      by_cases hhead : kept.head? = some name
      · rw [if_pos hhead]
        refine ⟨hstrict, ?_⟩
        intro n
        have hname : name ∈ names := (hmem name).1 (List.mem_of_head? hhead)
        rw [hmem, List.mem_cons]
        exact ⟨.inr, fun hn => hn.elim (fun heq => heq ▸ hname) id⟩
      · rw [if_neg hhead]
        refine ⟨List.pairwise_cons.2 ⟨?_, hstrict⟩, fun n => by simp [hmem]⟩
        intro other hother
        cases kept with
        | nil => cases hother
        | cons first kept =>
            have hne : name ≠ first := fun heq => hhead (by simp [heq])
            have hle : name ≤ first :=
              hleast first ((hmem first).1 List.mem_cons_self)
            have hlt : name < first := lt_of_le_of_ne hle hne
            rcases List.mem_cons.1 hother with rfl | hother
            · exact hlt
            · exact lt_trans hlt ((List.pairwise_cons.1 hstrict).1 other hother)

theorem sortedNames_spec (names : List String) :
    (sortedNames names).Pairwise (· < ·) ∧ ∀ n, n ∈ sortedNames names ↔
      n ∈ names := by
  have hle : ∀ a b : String, (!decide (b < a)) = true ↔ a ≤ b := by
    intro a b
    rw [Bool.not_eq_true', decide_eq_false_iff_not, not_lt]
  have hsorted :
      (names.mergeSort fun a b => !decide (b < a)).Pairwise (· ≤ ·) := by
    refine (List.pairwise_mergeSort ?_ ?_ names).imp fun {a b} hab =>
      (hle a b).1 hab
    · intro a b c hab hbc
      exact (hle a c).2 (le_trans ((hle a b).1 hab) ((hle b c).1 hbc))
    · intro a b
      rw [Bool.or_eq_true, hle, hle]
      exact le_total a b
  obtain ⟨hstrict, hmem⟩ := pairwise_unrepeated hsorted
  exact ⟨hstrict, fun n => (hmem n).trans (List.mergeSort_perm names _).mem_iff⟩

/-- The names that are found are those of the files of classes, as far as they
start as asked for. -/
theorem mem_classNames_iff {c : Classpath}
    (hc : ∀ root ∈ c.roots, root.Readable) (starts : List String)
    (name : String) :
    name ∈ c.classNames starts ↔
      (∃ root ∈ c.roots, ∃ stem bytes, root.Holds (stem ++ classSuffix) bytes ∧
        Names stem name) ∧
        (starts = [] ∨ ∃ start ∈ starts,
          (ClassName.dotted start).toList <+: name.toList) := by
  rw [classNames, (sortedNames_spec _).2, List.mem_filter]
  refine and_congr ?_ ?_
  · rw [List.mem_flatMap]
    refine exists_congr fun root => and_congr_right fun hroot => ?_
    rw [List.mem_filterMap]
    constructor
    · rintro ⟨resource, hresource, hname⟩
      obtain ⟨stem, rfl, hnames⟩ :=
        (className?_eq_some_iff resource name).1 hname
      obtain ⟨bytes, hholds⟩ :=
        (Root.mem_resources_iff (hc root hroot) _).1 hresource
      exact ⟨stem, bytes, hholds, hnames⟩
    · rintro ⟨stem, bytes, hholds, hnames⟩
      exact ⟨stem ++ classSuffix, (Root.mem_resources_iff (hc root hroot) _).2
        ⟨bytes, hholds⟩, (className?_eq_some_iff _ name).2 ⟨stem, rfl, hnames⟩⟩
  · simp [Text.startsWith_iff]

/-! ## Where a class is looked for -/

/-- The path of a file has the parts of the name of the class, the last one with
the ending. No part of a name has a dot. -/
theorem exists_parts {text ending : List Char} (htext : '/' ∉ text)
    (hending : '/' ∉ ending) :
    ∃ first last, text.splitOn '.' = first ++ [last] ∧
      (∀ part ∈ first, '.' ∉ part) ∧
      ((text.map fun c => if c = '.' then '/' else c) ++ ending).splitOn '/' =
        first ++ [last ++ ending] := by
  induction text with
  | nil =>
      exact ⟨[], [], by simp, by simp,
        by simpa using List.splitOn_eq_singleton hending⟩
  | cons c text ih =>
      have hslash : c ≠ '/' := fun hc => htext (by simp [hc])
      obtain ⟨first, last, hname, hdots, hpath⟩ :=
        ih fun hmem => htext (List.mem_cons_of_mem _ hmem)
      rw [List.map_cons, List.cons_append, List.splitOn_cons_eq_if_modifyHead,
        hname, List.splitOn_cons_eq_if_modifyHead, hpath]
      by_cases hdot : c = '.'
      · exact ⟨[] :: first, last, by simp [hdot], by simpa using hdots,
          by simp [hdot]⟩
      · cases first with
        | nil =>
            exact ⟨[], c :: last, by simp [hdot], by simp,
              by simp [hdot, hslash]⟩
        | cons part first =>
            obtain ⟨hpart, hdots⟩ := List.forall_mem_cons.1 hdots
            refine ⟨(c :: part) :: first, last, by simp [hdot], ?_,
              by simp [hdot, hslash]⟩
            refine List.forall_mem_cons.2 ⟨?_, hdots⟩
            rw [List.mem_cons, not_or]
            exact ⟨Ne.symm hdot, hpart⟩

theorem parts_resourceOf {name : String} (hslash : '/' ∉ name.toList) :
    ∃ first last, Text.splitOn '.' name = first ++ [last] ∧
      (∀ part ∈ first, '.' ∉ part.toList) ∧
      Text.splitOn '/' (resourceOf name) = first ++ [last ++ classSuffix] := by
  obtain ⟨first, last, hname, hdots, hpath⟩ :=
    exists_parts hslash (show '/' ∉ classSuffix.toList by decide)
  refine ⟨first.map String.ofList, String.ofList last, ?_, ?_, ?_⟩
  · rw [Text.splitOn, Text.splitChars_eq_splitOn, hname]
    simp
  · intro part hpart
    obtain ⟨chars, hchars, rfl⟩ := List.mem_map.1 hpart
    rw [String.toList_ofList]
    exact hdots chars hchars
  · rw [Text.splitOn, resourceOf, String.toList_append,
      ClassName.toList_slashed, Text.splitChars_eq_splitOn, hpath]
    simp

/-- The ending has a letter, so a path with it is none of the special parts. -/
theorem letter_mem (stem : String) : 'c' ∈ (stem ++ classSuffix).toList := by
  rw [String.toList_append]
  exact List.mem_append_right _ (by decide)

/-- A class is looked for under a plain path if no part of the path is empty. -/
theorem isPlain_of_not_mem {name : String} (hslash : '/' ∉ name.toList)
    (hempty : "" ∉ Text.splitOn '/' (resourceOf name)) :
    Path.IsPlain (resourceOf name) := by
  obtain ⟨first, last, _, hdots, hpath⟩ := parts_resourceOf hslash
  intro part hpart
  refine ⟨fun hnil => hempty (hnil ▸ hpart), ?_⟩
  rw [hpath] at hpart
  rcases List.mem_append.1 hpart with hfirst | hlast
  · have hdot := hdots part hfirst
    refine ⟨?_, ?_⟩ <;> rintro rfl <;> exact hdot (by decide)
  · have hletter := letter_mem last
    rw [← List.mem_singleton.1 hlast] at hletter
    refine ⟨?_, ?_⟩ <;> rintro rfl <;> revert hletter <;> decide

theorem not_mem_splitOn_resourceOf_iff {name : String}
    (hslash : '/' ∉ name.toList) :
    "" ∉ Text.splitOn '/' (resourceOf name) ↔
      "" ∉ (Text.splitOn '.' name).dropLast := by
  obtain ⟨first, last, hname, _, hpath⟩ := parts_resourceOf hslash
  have hlast : "" ≠ last ++ classSuffix := by
    intro hnil
    have hletter := letter_mem last
    rw [← hnil] at hletter
    revert hletter
    decide
  rw [hpath, hname, List.dropLast_concat, List.mem_append, List.mem_singleton]
  simp [hlast]

/-- A directory that holds the file of a class holds it under a plain path. -/
theorem takes_of_holds {r : Root} (h : r.Readable) {name : String}
    (hslash : '/' ∉ name.toList) {bytes : Bytes}
    (hholds : r.Holds (resourceOf name) bytes) : r.Takes (resourceOf name) := by
  cases r with
  | jar path entries => trivial
  | directory path files =>
      obtain ⟨p, hp, _, hresource⟩ := hholds
      have hnames := h.1.names p hp
      have hne : p.1 ≠ [] := by
        intro hnil
        have hletter := letter_mem (ClassName.slashed name)
        rw [← resourceOf, ← hresource, hnil] at hletter
        revert hletter
        decide
      refine isPlain_of_not_mem hslash ?_
      rw [← hresource, Text.splitOn_intercalate hne fun other hother =>
        (hnames other hother).2]
      exact fun hempty => (hnames "" hempty).1 rfl

/-! ## Reading classes -/

/-- The first of the roots that holds the file holds it with these bytes. -/
inductive FirstHolds (resource : String) (bytes : Bytes) : List Root → Prop
  | here {root : Root} {roots : List Root} (h : root.Holds resource bytes) :
      FirstHolds resource bytes (root :: roots)
  | later {root : Root} {roots : List Root}
      (hnot : ∀ bytes, ¬ root.Holds resource bytes)
      (h : FirstHolds resource bytes roots) : FirstHolds resource bytes
        (root :: roots)

/-- Reading a root for a class never fails and gives the file that the root
holds. It gives no other if the root takes the name as it is written. -/
theorem read_root {r : Root} (h : r.Readable) {name : String}
    (hslash : '/' ∉ name.toList) :
    ∃ found, r.read (resourceOf name) = .ok found ∧
      (∀ bytes, r.Holds (resourceOf name) bytes → found = some bytes) ∧
      (r.Takes (resourceOf name) → ∀ bytes, found = some bytes →
        r.Holds (resourceOf name) bytes) := by
  by_cases htakes : r.Takes (resourceOf name)
  · obtain ⟨found, hread, hfound⟩ := Root.read_of_takes h htakes
    exact ⟨found, hread, fun bytes => (hfound bytes).2, fun _ bytes =>
      (hfound bytes).1⟩
  · cases r with
    | jar path entries => exact absurd trivial htakes
    | directory path files =>
        have hread : ∃ found,
            (Root.directory path files).read (resourceOf name) = .ok found := by
          rw [Root.read]
          split
          · exact ⟨_, rfl⟩
          · exact ⟨_, rfl⟩
        obtain ⟨found, hread⟩ := hread
        refine ⟨found, hread, ?_, fun hplain => absurd hplain htakes⟩
        intro bytes hholds
        exact absurd (takes_of_holds h hslash hholds) htakes

/-- Reading a class from readable roots, root by root. -/
theorem read_roots {roots : List Root} (h : ∀ root ∈ roots, root.Readable)
    {name : String} (hslash : '/' ∉ name.toList) :
    ∃ found, read.go name roots = .ok found ∧
      ((∃ root ∈ roots, ∃ bytes, root.Holds (resourceOf name) bytes) →
        found.isSome = true) ∧
      ((∀ root ∈ roots, root.Takes (resourceOf name)) →
        ∀ bytes, found = some bytes ↔
          FirstHolds (resourceOf name) bytes roots) := by
  induction roots with
  | nil =>
      exact ⟨none, rfl, by simp, fun _ bytes =>
        ⟨(by simp), fun hfirst => by cases hfirst⟩⟩
  | cons root roots ih =>
      obtain ⟨hroot, hroots⟩ := List.forall_mem_cons.1 h
      obtain ⟨here, hread, hheld, htaken⟩ := read_root hroot hslash
      obtain ⟨found, hrest, hsome, hfirst⟩ := ih hroots
      rw [read.go, hread]
      cases here with
      | some bytes =>
          refine ⟨some bytes, rfl, fun _ => rfl, ?_⟩
          intro htakes other
          have hholds := htaken (htakes root List.mem_cons_self) bytes rfl
          constructor
          · intro hsame
            exact .here (Option.some.inj hsame ▸ hholds)
          · intro hfirst
            cases hfirst with
            | here hother => exact hheld other hother
            | later hnot _ => exact absurd hholds (hnot bytes)
      | none =>
          have hnot : ∀ bytes, ¬ root.Holds (resourceOf name) bytes := by
            intro bytes hholds
            cases hheld bytes hholds
          refine ⟨found, hrest, ?_, ?_⟩
          · rintro ⟨other, hother, bytes, hholds⟩
            rcases List.mem_cons.1 hother with rfl | hother
            · exact absurd hholds (hnot bytes)
            · exact hsome ⟨other, hother, bytes, hholds⟩
          · intro htakes bytes
            rw [hfirst fun other hother =>
              htakes other (List.mem_cons_of_mem _ hother)]
            refine ⟨.later hnot, fun hlater => ?_⟩
            cases hlater with
            | here hholds => exact absurd hholds (hnot bytes)
            | later _ hlater => exact hlater

/-- A root holds a file of the class whose path has no dot but that of its
ending. -/
def HasUndottedFile (c : Classpath) (name : String) : Prop :=
  ∃ root ∈ c.roots, ∃ stem bytes,
    root.Holds (stem ++ classSuffix) bytes ∧ Names stem name ∧ '.' ∉ stem.toList

/-- There is one path without such dots, the one that the class is looked for
in. -/
theorem hasUndottedFile_iff {c : Classpath} {stem name : String}
    (h : Names stem name) :
    c.HasUndottedFile name ↔ ∃ root ∈ c.roots, ∃ bytes,
      root.Holds (resourceOf name) bytes := by
  constructor
  · rintro ⟨root, hroot, other, bytes, hholds, hother, hdot⟩
    rw [← hother.resourceOf_eq hdot] at hholds
    exact ⟨root, hroot, bytes, hholds⟩
  · rintro ⟨root, hroot, bytes, hholds⟩
    exact ⟨root, hroot, ClassName.slashed name, bytes, hholds, h.slashed,
      ClassName.dot_not_mem_slashed name⟩

theorem FirstHolds.exists_holds {resource : String} {bytes : Bytes}
    {roots : List Root} (h : FirstHolds resource bytes roots) :
    ∃ root ∈ roots, ∃ bytes, root.Holds resource bytes := by
  induction h with
  | here hholds => exact ⟨_, List.mem_cons_self, bytes, hholds⟩
  | later _ _ ih =>
      obtain ⟨root, hroot, hholds⟩ := ih
      exact ⟨root, List.mem_cons_of_mem _ hroot, hholds⟩

/-- A directory and a jar that both hold a file of one class. A directory name
has dots. -/
def layered : Classpath where
  roots := [
    .directory "classes" { nodes := [
      (["com"], .directory), (["com", "App.class"], .file #[1]),
      (["com", "package-info.class"], .file #[2]),
        (["lib-1.2", "Old.class"], .file #[3])] },
    .jar "lib.jar" [
      { name := "com/App.class", content := #[4] },
        { name := "org/Helper.class", content := #[5] },
      { name := "module-info.class", content := #[6] }]]

theorem layered_readable : ∀ root ∈ layered.roots, root.Readable := by
  decide

/-- A file whose name has a dot. -/
def dottedFile : Classpath where
  roots := [.directory "classes" { nodes := [(["a.b.class"], .file #[1])] }]

/-- A jar whose entry has an empty name on its path, behind a directory. -/
def doubledSlash : Classpath where
  roots := [
    .directory "classes" { nodes := [(["a", "b.class"], .file #[1])] },
    .jar "lib.jar" [{ name := "a//b.class", content := #[2] }]]

end Classpath

end TestCost
