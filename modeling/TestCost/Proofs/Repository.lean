import TestCost.Proofs.Class
import TestCost.Repository

/-!
# What a repository answers

A repository is asked for classes in the middle of an analysis, and keeps
those it has decoded. As long as it only keeps what its source gives
(`Faithful`), it answers as its source does, so an analysis can be described
by the source alone.

A source has finitely many files. A class is decoded from one of them and
does not depend on the name it is asked for by, so that the classes of a
source, and with them the methods that can ever be met, are finitely many
too, however many names lead to them.

## Main results

* `Faithful.get`, `Faithful.get_eq` — asking keeps a repository faithful, and
  a faithful one answers as its source.
* `SameClasses.foldl_ask` — what is kept hangs on what is asked for.
* `ClassSource.mem_classes` — every class of a source comes from one of its
  files.
* `ClassSource.length_declared_le` — how many methods a source declares.
-/

namespace TestCost

theorem mem_of_lookup {α β : Type} [BEq α] [LawfulBEq α]
    {entries : List (α × β)} {key : α} {value : β}
    (h : entries.lookup key = some value) : (key, value) ∈ entries := by
  obtain ⟨before, after, rfl, _⟩ := List.lookup_eq_some_iff.1 h
  simp

namespace Root

/-- What the files of a root hold. -/
def contents : Root → List Bytes
  | directory _ files => files.nodes.filterMap fun (_, node) => node.bytes?
  | jar _ entries => entries.map JarEntry.content

theorem length_contents_le (r : Root) : r.contents.length ≤ r.size := by
  cases r with
  | directory path files => exact List.length_filterMap_le _ _
  | jar path entries => simp [contents, size]

theorem mem_contents_of_read {r : Root} {resource : String} {bytes : Bytes}
    (h : r.read resource = .ok (some bytes)) : bytes ∈ r.contents := by
  cases r with
  | directory path files =>
      unfold read at h
      dsimp only at h
      split at h
      · obtain ⟨node, hnode, hbytes⟩ :=
          Option.bind_eq_some_iff.1 (Except.ok.inj h)
        obtain ⟨place, _, hplace⟩ := Option.bind_eq_some_iff.1 hnode
        exact List.mem_filterMap.2 ⟨(place, node), mem_of_lookup hplace, hbytes⟩
      · cases h
  | jar path entries =>
      unfold read at h
      dsimp only at h
      split at h
      · cases h
      · next entry hentry =>
        split at h
        · cases h
        · obtain rfl := Option.some.inj (Except.ok.inj h)
          exact List.mem_map_of_mem (List.mem_of_find?_eq_some hentry)

theorem length_flatMap_contents_le (roots : List Root) :
    (roots.flatMap contents).length ≤ total (roots.map size) := by
  induction roots with
  | nil => exact Nat.le_refl _
  | cons root roots ih =>
      have hroot := root.length_contents_le
      rw [List.flatMap_cons, List.length_append, List.map_cons, total_cons]
      omega

theorem mem_flatMap_contents_of_read {name : String} {roots : List Root}
    {bytes : Bytes} (h : Classpath.read.go name roots = .ok (some bytes)) :
    bytes ∈ roots.flatMap contents := by
  induction roots with
  | nil => cases h
  | cons root roots ih =>
      rw [List.flatMap_cons, List.mem_append]
      unfold Classpath.read.go at h
      split at h
      · exact .inr (ih h)
      · next hroot =>
        obtain rfl := Option.some.inj (Except.ok.inj h)
        exact .inl (mem_contents_of_read hroot)
      · cases h

theorem exists_of_read_eq_error {name : String} {roots : List Root}
    {fault : LoadFault} (h : Classpath.read.go name roots = .error fault) :
    ∃ why, fault = .unreadable name why := by
  induction roots with
  | nil => cases h
  | cons root roots ih =>
      unfold Classpath.read.go at h
      split at h
      · exact ih h
      · cases h
      · exact ⟨_, (Except.error.inj h).symm⟩

end Root

namespace ClassSource

/-- The class that a source has under a name. -/
def load (s : ClassSource) (name : String) : Except LoadFault ClassModel :=
  Repository.decode { source := s } name

/-- What the files of a source hold. -/
def contents : ClassSource → List Bytes
  | table entries => entries.map Prod.snd
  | classpath c => c.roots.flatMap Root.contents

/-- The classes in the files of a source. -/
def classes (s : ClassSource) : List ClassModel :=
  s.contents.filterMap fun bytes => (ClassModel.parse "" bytes).toOption

/-- The methods that the classes of a source declare. -/
def declared (s : ClassSource) : List Method :=
  s.classes.flatMap ClassModel.methods

theorem load_of_read {s : ClassSource} {name : String} {bytes : Bytes}
    (h : s.read name = .ok (some bytes)) :
    s.load name = ClassModel.parse name bytes := by
  unfold load Repository.decode
  rw [h]
  rfl

theorem length_contents_le (s : ClassSource) : s.contents.length ≤ s.size := by
  cases s with
  | table entries => simp [contents, size]
  | classpath c => exact Root.length_flatMap_contents_le c.roots

theorem mem_contents_of_read {s : ClassSource} {name : String} {bytes : Bytes}
    (h : s.read name = .ok (some bytes)) : bytes ∈ s.contents := by
  cases s with
  | table entries =>
      have hlookup : entries.lookup name = some bytes := Except.ok.inj h
      exact List.mem_map.2 ⟨(name, bytes), mem_of_lookup hlookup, rfl⟩
  | classpath c => exact Root.mem_flatMap_contents_of_read h

theorem mem_classes {s : ClassSource} {name : String} {c : ClassModel}
    (h : s.load name = .ok c) : c ∈ s.classes := by
  obtain ⟨bytes?, hread, h⟩ := exists_of_bind_eq_ok h
  cases bytes? with
  | none => cases h
  | some bytes =>
      refine List.mem_filterMap.2 ⟨bytes, mem_contents_of_read hread, ?_⟩
      rw [ClassModel.parse_irrelevant h]
      rfl

/-- A class that is said to be missing is the one that was asked for. -/
theorem missingClass?_of_load {s : ClassSource} {name : String}
    {fault : LoadFault} (h : s.load name = .error fault) :
    fault.missingClass? = none ∨ fault.missingClass? = some name := by
  rcases eq_error_of_bind_eq_error h with h | ⟨bytes?, h⟩
  · cases s with
    | table entries => cases h
    | classpath c =>
        obtain ⟨why, rfl⟩ := Root.exists_of_read_eq_error h
        exact .inl rfl
  · cases bytes? with
    | none => exact .inr (Except.error.inj h ▸ rfl)
    | some bytes => exact .inl (ClassModel.missingClass?_of_parse h)

theorem exists_parse_of_mem_classes {s : ClassSource} {c : ClassModel}
    (h : c ∈ s.classes) :
    ∃ bytes ∈ s.contents, ClassModel.parse "" bytes = .ok c := by
  obtain ⟨bytes, hmem, hbytes⟩ := List.mem_filterMap.1 h
  exact ⟨bytes, hmem, toOption_eq_some_iff.1 hbytes⟩

theorem length_classes_le (s : ClassSource) : s.classes.length ≤ s.size :=
  Nat.le_trans (List.length_filterMap_le _ _) s.length_contents_le

theorem length_declared_le (s : ClassSource) :
    s.declared.length ≤ s.size * 2 ^ 16 := by
  have hlength : ∀ classes : List ClassModel,
      (∀ c ∈ classes, c.methods.length ≤ 2 ^ 16) →
      (classes.flatMap ClassModel.methods).length ≤ classes.length *
        2 ^ 16 := by
    intro classes hclasses
    induction classes with
    | nil => simp
    | cons c classes ih =>
        have hc := hclasses c List.mem_cons_self
        have hrest := ih fun d hd => hclasses d (List.mem_cons_of_mem _ hd)
        simp only [List.flatMap_cons, List.length_append, List.length_cons]
        omega
  have hclasses : ∀ c ∈ s.classes, c.methods.length ≤ 2 ^ 16 := by
    intro c hc
    obtain ⟨bytes, _, hbytes⟩ := exists_parse_of_mem_classes hc
    exact Nat.le_of_lt (ClassModel.length_methods_lt hbytes)
  calc s.declared.length
      ≤ s.classes.length * 2 ^ 16 := hlength s.classes hclasses
    _ ≤ s.size * 2 ^ 16 := Nat.mul_le_mul_right _ s.length_classes_le

end ClassSource

namespace Repository

/-- The repository keeps nothing but what its source gives. -/
def Faithful (r : Repository) : Prop :=
  ∀ name c, r.cache.lookup name = some c → r.source.load name = .ok c

variable {r : Repository}

theorem faithful_empty (s : ClassSource) (log : Array LogEvent) :
    Faithful { source := s, log := log } := by
  intro name c h
  cases h

theorem Faithful.note (h : r.Faithful) (event : LogEvent) :
    (r.note event).Faithful := h

/-- A class is kept when it has first been asked for. -/
theorem get_of_load {name : String} {c : ClassModel}
    (hnew : r.cache.lookup (ClassName.dotted name) = none)
    (hload : r.source.load (ClassName.dotted name) = .ok c) :
    r.get name =
      ({ r with cache := (ClassName.dotted name, c) :: r.cache }.note
        (.decodedClass (ClassName.dotted name) c.methods.length), .ok c) := by
  have hdecode : r.decode (ClassName.dotted name) = .ok c := hload
  unfold get
  simp only [hnew, hdecode]

@[simp] theorem source_get (r : Repository) (name : String) :
    (r.get name).1.source = r.source := by
  unfold get
  dsimp only
  split
  · rfl
  · split <;> rfl

/-- A class is kept under its dotted name, and asked for by any form of it. -/
theorem get_dotted (r : Repository) (name : String) :
    r.get (ClassName.dotted name) = r.get name := by
  unfold get
  rw [ClassName.dotted_dotted]

theorem Faithful.get_eq (h : r.Faithful) (name : String) :
    (r.get name).2 = r.source.load (ClassName.dotted name) := by
  unfold Repository.get
  dsimp only
  split
  · next c hc => exact (h _ c hc).symm
  · split
    · next fault hfault => exact hfault.symm
    · next c hc => exact hc.symm

theorem Faithful.get (h : r.Faithful) (name : String) :
    (r.get name).1.Faithful := by
  unfold Repository.get
  dsimp only
  split
  · exact h
  · split
    · exact h
    · next c hc =>
      intro other d hd
      change ((ClassName.dotted name, c) :: r.cache).lookup other = some d at hd
      by_cases hname : other = ClassName.dotted name
      · subst hname
        rw [List.lookup_cons_self] at hd
        obtain rfl := Option.some.inj hd
        exact hc
      · rw [List.lookup_cons, beq_false_of_ne hname] at hd
        exact h other d hd

/-! ## Being asked -/

/-- The repository once it has been asked for a class. -/
def ask (r : Repository) (name : String) : Repository := (r.get name).1

/-- The repositories have the same source and keep the same classes, whatever
is in their logs. -/
structure SameClasses (r r' : Repository) : Prop where
  source : r'.source = r.source
  cache : r'.cache = r.cache

theorem SameClasses.refl (r : Repository) : SameClasses r r := ⟨rfl, rfl⟩

theorem SameClasses.trans {r r' r'' : Repository} (h : SameClasses r r')
    (h' : SameClasses r' r'') :
    SameClasses r r'' :=
  ⟨h'.source.trans h.source, h'.cache.trans h.cache⟩

theorem sameClasses_note (r : Repository) (event : LogEvent) :
    SameClasses r (r.note event) :=
  ⟨rfl, rfl⟩

/-- What is kept after a question hangs on the source and on what was kept
before. -/
theorem SameClasses.ask {r r' : Repository} (h : SameClasses r r')
    (name : String) :
    SameClasses (r.ask name) (r'.ask name) := by
  have hdecode : ∀ name, r'.decode name = r.decode name := by
    intro name
    unfold Repository.decode
    rw [h.source]
  unfold Repository.ask Repository.get
  dsimp only
  rw [h.cache, hdecode]
  split
  · exact h
  · split
    · exact h
    · exact ⟨h.source, rfl⟩

theorem SameClasses.foldl_ask {r r' : Repository} (h : SameClasses r r')
    (names : List String) :
    SameClasses (names.foldl Repository.ask r)
      (names.foldl Repository.ask r') := by
  induction names generalizing r r' with
  | nil => exact h
  | cons name names ih => exact ih (h.ask name)

end Repository

end TestCost
