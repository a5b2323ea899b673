import TestCost.Code.Instruction

/-!
# Slots and variables

Code names locals by slot. A slot can serve several variables one after
the other, and `Slots` decides which one an access means: the variable
that the slot served last, unless the access is of another kind or the
debug names say that another variable has taken over.

Debug names cover ranges of offsets. A store precedes the range of the
variable that it starts, so an access outside all ranges of its slot takes
the next range to come, and only after the last one the range most
recently left.
-/

namespace TestCost

namespace DebugName

/-- Added to the distance of a range that lies behind: any range ahead is
nearer. -/
def behind : Nat := 2147483647

/-- How far an offset is from the range of a name. -/
def distance (d : DebugName) (offset : Nat) : Nat :=
  if d.start ≤ offset ∧ offset < d.start + d.length then 0
  else if offset < d.start then d.start - offset
  else behind + (offset - (d.start + d.length))

/-- The first of the entries with the least distance. -/
def nearest (offset : Nat) : List DebugName → Option DebugName
  | [] => none
  | d :: rest => some <| rest.foldl (fun best e =>
      if e.distance offset < best.distance offset then e else best) d

/-- The name of a slot at an offset. -/
def name? (names : List DebugName) (slot offset : Nat) : Option String :=
  (nearest offset (names.filter fun d => d.slot == slot)).map DebugName.name

end DebugName

/-- The variables of a method while its code is read. -/
structure Slots where
  scope : String
  names : List DebugName
  /-- The variable that each slot served last. -/
  current : List (Nat × Variable) := []
  /-- Locals in order of appearance. -/
  locals : List Variable := []
  /-- Variables so far, which is the ordinal of the next one. -/
  count : Nat := 0

namespace Slots

/-- A new variable of the method. -/
def fresh (s : Slots) (name : String) (type : ValueType) : LocalVariable :=
  { scope := s.scope, ordinal := s.count, name, type }

/-- Let a slot serve a variable. -/
def serve (s : Slots) (slot : Nat) (v : Variable) : Slots :=
  { s with current := (slot, v) :: s.current, count := s.count + 1 }

/-- The parameter that starts at a slot. -/
def parameter (s : Slots) (slot : Nat) (type : ValueType) (fallback : String) :
    Slots × Variable :=
  let name := (DebugName.name? s.names slot 0).getD fallback
  let v := Variable.parameter (s.fresh name type)
  (s.serve slot v, v)

/-- The variable that a slot goes on serving: one of the same kind, and of
the debug name if there is one. -/
def reused? (s : Slots) (slot : Nat) (type : ValueType) (name : Option String) :
    Option Variable :=
  (s.current.lookup slot).filter fun v =>
    v.type.stackKind == type.stackKind && name.all (v.text == ·)

/-- The variable that an access of a slot means. -/
def access (s : Slots) (slot : Nat) (type : ValueType) (offset : Nat) :
    Slots × Variable :=
  let name := DebugName.name? s.names slot offset
  match s.reused? slot type name with
  | some v => (s, v)
  | none =>
    let v :=
      Variable.localVar (s.fresh (name.getD ("local_" ++ toString slot)) type)
    ({ s.serve slot v with locals := s.locals ++ [v] }, v)

/-- Parameters of the given kinds from a slot on; `rank` counts those in
front of them. -/
def addParameters (s : Slots) (slot rank : Nat) :
    List ValueType → Slots × List Variable
  | [] => (s, [])
  | type :: types =>
    let (s, v) := s.parameter slot type ("param_" ++ toString rank)
    let (s, rest) := s.addParameters (slot + type.slots) (rank + 1) types
    (s, v :: rest)

end Slots

end TestCost
