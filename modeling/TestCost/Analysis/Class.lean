import TestCost.Analysis.Visit

/-!
# The cost of a class

A test of a class can set its visible fields and call its visible methods
with any arguments. Before it calls an instance method it has to construct
an instance, with the visible constructor that lets it decide about most
parameters; that construction counts for every method that a subclass
could replace.

What runs first is analysed first, so that what it stores is known to the
rest: static initializers, the constructor, setters, then all methods in
the order of declaration.
-/

namespace TestCost

/-- The visible constructor with most reference parameters; the first one
of several. -/
def ClassModel.preferredConstructor? (c : ClassModel) : Option Method :=
  let visible := c.methods.filter fun m => m.isConstructor && !m.isPrivate
  visible.foldl (fun best m =>
    match best with
    | none => some m
    | some b =>
      if b.referenceParameters < m.referenceParameters then some m
      else some b) none

namespace Analysis

/-- An analysis that knows what a test can decide about. -/
def ofClass (repository : Repository) (whitelist : Whitelist) (c : ClassModel) :
    Analysis :=
  let start : Analysis := { repository, whitelist, className := c.name }
  let fields := c.fields.filter fun f => !f.isPrivate
  let methods := c.methods.filter fun m => !m.isPrivate
  let a := fields.foldl (fun a f => a.setInjectable (.field f)) start
  methods.foldl setMethodInjectable a

/-- Visit methods of a class one after the other. -/
def visitAll (c : ClassModel) : Analysis → List Method → Analysis × List NodeId
  | a, [] => (a, [])
  | a, m :: methods =>
    let (a, id) := a.visit c m
    let (a, ids) := visitAll c a methods
    (a, id :: ids)

/-- Every method that a subclass could replace calls the constructor. -/
def chargeConstruction (a : Analysis) (c : ClassModel) (constructor : Method)
    (ids : List NodeId) : Analysis :=
  let (a, constructorId) := a.visit c constructor
  (c.methods.zip ids).foldl (fun a (m, id) =>
    if m.canOverride then a.addCall id constructor.startingLine constructorId
    else a) a

/-- Analyse all methods of a class; answers their nodes. -/
def visitClass (a : Analysis) (c : ClassModel) : Analysis × List NodeId :=
  let constructor := c.preferredConstructor?
  let first :=
    c.methods.filter (fun m => m.isStaticInitializer) ++ constructor.toList
      ++ c.methods.filter fun m => Text.startsWith m.name "set"
  let (a, _) := visitAll c a first
  let (a, ids) := visitAll c a c.methods
  match constructor with
  | some constructor => (a.chargeConstruction c constructor ids, ids)
  | none => (a, ids)

end Analysis

namespace Repository

/-- The cost of a class. It fails only when the class itself cannot be
loaded; classes that it needs and that cannot be loaded are listed in the
result. -/
def classCost (r : Repository) (w : Whitelist) (name : String) :
    Repository × Except LoadFault ClassCost :=
  match r.get name with
  | (r, .error fault) => (r, .error fault)
  | (r, .ok c) =>
    let (a, ids) := (Analysis.ofClass r w c).visitClass c
    let cost := a.finish ids
    let event :=
      LogEvent.computedCost cost.name cost.totalComplexity cost.totalGlobals
    (a.repository.note event, .ok cost)

/-- The costs of classes in the order of names. A class that cannot be
loaded is told of and left out. -/
def classCosts (r : Repository) (w : Whitelist) :
    List String → Repository × List ClassCost
  | [] => (r, [])
  | name :: names =>
    match r.classCost w name with
    | (r, .ok cost) =>
      let (r, costs) := r.classCosts w names
      (r, cost :: costs)
    | (r, .error fault) =>
      (r.note (.skippedClass name fault)).classCosts w names

/-- The costs of classes in the order of a report. -/
def analyse (r : Repository) (w : Whitelist) (names : List String) :
    Repository × List ClassCost :=
  let (r, costs) := r.classCosts w names
  (r, ClassCost.sorted costs)

end Repository

end TestCost
