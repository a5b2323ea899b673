import TestCost.Analysis.Basic

/-!
# Visiting methods

Visiting a method analyses its statements and those of all methods that it
leads to. A call leads to its callee unless a test can intercept it: the
callee can be overridden and the receiver is injectable. Calls into
whitelisted classes and calls on arrays lead nowhere.

Every method is analysed once, with the facts that hold when its turn
comes. A method that is met for the first time gets a node and waits in the
queue; the one that came last goes first.

## Why it ends

A source holds `size` files and a class file declares fewer than `2 ^ 16`
methods, so at most `size * (2 ^ 16 - 1)` methods can ever be met, plus the
one that is visited. Likewise a chain of superclasses without repetition
loads at most `size` classes. These bounds are the fuel of the two loops;
no user of `visit` and `resolve` sees them.
-/

namespace TestCost

namespace Analysis

/-- Search a class and then its superclasses for a method; at most `steps`
classes are asked for. The search ends at a class without a superclass or
with a whitelisted one. -/
def resolveWithin (w : Whitelist) (signature : String) :
    (steps : Nat) → Repository → String →
      Repository × Except LoadFault (Option ClassModel)
  | 0, r, _ => (r, .ok none)
  | steps + 1, r, name =>
    match r.get name with
    | (r, .error fault) => (r, .error fault)
    | (r, .ok c) =>
      if (c.method? signature).isSome then (r, .ok (some c))
      else
        match c.superName with
        | none => (r, .ok none)
        | some parent =>
          if w.covers parent then (r, .ok none)
          else resolveWithin w signature steps r parent

/-- The class that declares a method which is called on `owner`. -/
def resolve (a : Analysis) (owner signature : String) :
    Analysis × Except LoadFault (Option ClassModel) :=
  let (repository, found) :=
    resolveWithin a.whitelist signature (a.repository.source.size + 1)
      a.repository owner
  ({ a with repository }, found)

/-- Tell once of a class that could not be loaded. -/
def reportMissing (a : Analysis) (owner : String) (fault : LoadFault) :
    Analysis :=
  let name := fault.missingClass?.getD owner
  if a.missing.any fun m => m.name == name then a
  else
    let event := match fault with
      | .notFound _ => .dependencyMissing a.className name
      | _ => .dependencyBroken a.className name fault
    { a.note event with
      missing := a.missing ++ [{ name, reason := fault.message }] }

/-- The node of a method; if it is new, the method waits to be analysed. -/
def enqueue (a : Analysis) (c : ClassModel) (m : Method) : Analysis × NodeId :=
  match a.graph.find? m.fullName with
  | some id => (a, id)
  | none =>
    let (graph, id) := a.graph.add m
    ({ a with graph, queue := (c, m.signature) :: a.queue }, id)

/-- The receiver of a call is one that a test can decide about. -/
def hasInjectableReceiver (a : Analysis) (call : Invocation) : Bool :=
  call.receiver.any a.isInjectable

/-- Values flow from a call into its callee: arguments, then receiver. -/
def passArguments (a : Analysis) (callee : Method) (call : Invocation) :
    Analysis :=
  let a := (callee.parameters.zip call.arguments).foldl
    (fun a (p, v) => a.assign p v) a
  match callee.receiver, call.receiver with
  | some p, some v => a.assign p v
  | _, _ => a

/-- A call leads nowhere that counts. -/
def ignores (a : Analysis) (owner : String) : Bool :=
  a.whitelist.covers owner || Text.startsWith owner "["

/-- A method makes a call. -/
def invoke (a : Analysis) (caller : NodeId) (call : Invocation) : Analysis :=
  if a.ignores call.owner then a
  else
    match a.resolve call.owner call.signature with
    | (a, .error fault) => a.reportMissing call.owner fault
    | (a, .ok none) => a
    | (a, .ok (some c)) =>
      match c.method? call.signature with
      | none => a
      | some callee =>
        if callee.canOverride && a.hasInjectableReceiver call then a
        else
          let (a, id) := (a.passArguments callee call).enqueue c callee
          a.addCall caller call.line id

/-- A method has a statement. -/
def apply (method : NodeId) (a : Analysis) : Statement → Analysis
  | .assign _ target value => a.assign target value
  | .putField line receiver target value =>
    a.putField method line receiver target value
  | .putElement line array _ value => a.putElement method line array value
  | .invoke call => a.invoke method call

/-- Analyse one method. -/
def analyse (a : Analysis) (m : Method) : Analysis :=
  let (graph, id) := a.graph.add m
  let a := { a with graph }.note (.analysingMethod m.fullName m.locals.length)
  m.statements.foldl (apply id) a

/-- Analyse methods that wait, at most `rounds` of them. -/
def drain : (rounds : Nat) → Analysis → Analysis
  | 0, a => a
  | rounds + 1, a =>
    match a.queue with
    | [] => a
    | (c, signature) :: rest =>
      let a := { a with queue := rest }
      match c.method? signature with
      | none => drain rounds a
      | some m => drain rounds (a.analyse m)

/-- More methods than a class file can declare. -/
def methodLimit : Nat := Nat.pow 2 16

/-- Analyse a method and everything it leads to, unless that has been done;
answers the node of the method. -/
def visit (a : Analysis) (c : ClassModel) (m : Method) : Analysis × NodeId :=
  let (a, id) := a.enqueue c m
  (a.drain (a.repository.source.size * methodLimit + 1), id)

/-- Link the costs. -/
def finish (a : Analysis) (methods : List NodeId) : ClassCost :=
  { name := a.className, graph := a.graph.link, methods, missing := a.missing }

end Analysis

end TestCost
