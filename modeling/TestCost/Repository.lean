import TestCost.Class.Loading
import TestCost.Classpath

/-!
# Repositories

A repository gives classes by name. It decodes a class when it is first
asked for and keeps it; what cannot be loaded is not kept, so it fails in
the same way whenever it is asked for.

A repository also keeps the log of the run, because loading happens in the
middle of everything else that is told.
-/

namespace TestCost

/-- Where the bytes of classes come from: a table by dotted name, or the
roots of a class path. Either way there are finitely many. -/
inductive ClassSource where
  | table (entries : List (String × Bytes))
  | classpath (classpath : Classpath)

namespace ClassSource

/-- Bytes of the class with this name, if the source has it. -/
def read (s : ClassSource) (name : String) : Except LoadFault (Option Bytes) :=
  match s with
  | table entries => .ok (entries.lookup name)
  | classpath c => c.read name

/-- Number of files in the source, which bounds the number of classes. -/
def size : ClassSource → Nat
  | table entries => entries.length
  | classpath c => c.size

end ClassSource

/-- Classes by name, decoded once. -/
structure Repository where
  source : ClassSource
  /-- Decoded classes by the name they were asked for. -/
  cache : List (String × ClassModel) := []
  log : Array LogEvent := #[]

namespace Repository

/-- Note an event. -/
def note (r : Repository) (event : LogEvent) : Repository :=
  { r with log := r.log.push event }

/-- Decode the class with this dotted name from the source. -/
def decode (r : Repository) (name : String) : Except LoadFault ClassModel := do
  match ← r.source.read name with
  | none => throw (.notFound name)
  | some bytes => ClassModel.parse name bytes

/-- The class with this name. -/
def get (r : Repository) (name : String) :
    Repository × Except LoadFault ClassModel :=
  let name := ClassName.dotted name
  match r.cache.lookup name with
  | some c => (r, .ok c)
  | none =>
    match r.decode name with
    | .error fault => (r, .error fault)
    | .ok c =>
      ({ r with cache := (name, c) :: r.cache }.note
        (.decodedClass name c.methods.length), .ok c)

/-- Number of classes kept. -/
def size (r : Repository) : Nat := r.cache.length

end Repository

end TestCost
