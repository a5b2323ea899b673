import TestCost.Descriptor
import TestCost.Statement

/-!
# Stack effects

What an instruction does to the operand stack, with the variables it names
already resolved. An effect takes a fixed number of operands off the top
of the stack (`StackEffect.operands`), puts back values computed from them
(`StackEffect.results`), and may stand for a statement
(`StackEffect.statement?`). Operand lists are read bottom first: the last
element is the top of the stack.

A statement names its operands by position. `statement?` answers `none`
when a position it needs is beyond the operands it was given, and
`some none` when the effect stands for no statement.
-/

namespace TestCost

/-- The method that a call instruction names. -/
structure CallTarget where
  owner : String
  name : String
  descriptor : String
  isStatic : Bool
  type : MethodType
  deriving DecidableEq

/-- What an instruction does to the operand stack. -/
inductive StackEffect where
  /-- Push a variable. -/
  | load (v : Variable)
  /-- Pop into a local. -/
  | store (v : Variable)
  /-- Pop operands and push a result that is not tracked, if any. -/
  | transform (consumes : Nat) (result : Option Variable)
  | getField (f : Field)
  | putField (f : Field)
  | arrayLoad (element : ValueType)
  | arrayStore (element : ValueType)
  | invoke (target : CallTarget)
  /-- Copy the top value below the `skipped` values under it. -/
  | duplicate (skipped : Nat)
  /-- Copy the two top values below the `skipped` values under them. -/
  | duplicatePair (skipped : Nat)
  | swap
  | pop (count : Nat)
  /-- Leave the method with a value of this kind. -/
  | leave (type : ValueType)
  /-- Leave the method with an exception. -/
  | raise

namespace StackEffect

/-- Number of slots taken off the stack. -/
def operands : StackEffect → Nat
  | load _ => 0
  | store v => v.type.slots
  | transform consumes _ => consumes
  | getField f => if f.isStatic then 0 else 1
  | putField f => f.type.slots + if f.isStatic then 0 else 1
  | arrayLoad _ => 2
  | arrayStore element => 2 + element.slots
  | invoke target =>
    (if target.isStatic then 0 else 1) + target.type.parameterSlots
  | duplicate skipped => 1 + skipped
  | duplicatePair skipped => 2 + skipped
  | swap => 2
  | pop count => count
  | leave type => type.slots
  | raise => 1

/-- The values put back for the operands taken. Loading an element of an
array of references gives the array itself: what holds of the array holds
of its elements. -/
def results (effect : StackEffect) (input : List Variable) : List Variable :=
  match effect with
  | load v => v.onStack
  | transform _ result => (result.map Variable.onStack).getD []
  | getField f => (Variable.field f).onStack
  | arrayLoad element =>
    if element.isReference then input.take 1
    else (Variable.constant (.unknown element)).onStack
  | invoke target => (Variable.constant (.unknown target.type.result)).onStack
  | duplicate _ => input.drop (input.length - 1) ++ input
  | duplicatePair _ => input.drop (input.length - 2) ++ input
  | swap => input.reverse
  | store _ | putField _ | arrayStore _ | pop _ | leave _ | raise => []

/-- The arguments of a call: each parameter is found where the slots of the
parameters before it end. -/
def arguments (input : List Variable) :
    (position : Nat) → List ValueType → Option (List Variable)
  | _, [] => some []
  | position, t :: types => do
    let argument ← input[position]?
    let rest ← arguments input (position + t.slots) types
    pure (argument :: rest)

/-- The statement that the effect stands for, with its operands by name. -/
def statement? (line : Nat) (effect : StackEffect) (input : List Variable) :
    Option (Option Statement) :=
  match effect with
  | store v => do
    let value ← input[0]?
    pure (some (.assign line v value))
  | putField f =>
    if f.isStatic then do
      let value ← input[0]?
      pure (some (.putField line none f value))
    else do
      let receiver ← input[0]?
      let value ← input[1]?
      pure (some (.putField line (some receiver) f value))
  | arrayStore _ => do
    let array ← input[0]?
    let index ← input[1]?
    let value ← input[2]?
    pure (some (.putElement line array index value))
  | invoke target =>
    let call receiver arguments : Invocation :=
      { line, owner := target.owner, name := target.name,
        descriptor := target.descriptor
        receiver, arguments }
    if target.isStatic then do
      let found ← arguments input 0 target.type.parameters
      pure (some (.invoke (call none found)))
    else do
      let receiver ← input[0]?
      let found ← arguments input 1 target.type.parameters
      pure (some (.invoke (call (some receiver) found)))
  | _ => some none

/-- Nothing of the method runs after this effect. -/
def isTerminal : StackEffect → Bool
  | leave _ | raise => true
  | _ => false

end StackEffect

/-- The effect of one instruction, with the source line it comes from. -/
structure StackOp where
  line : Nat
  effect : StackEffect

namespace StackOp

/-- Number of slots taken off the stack. -/
def operands (op : StackOp) : Nat := op.effect.operands

/-- The values put back for the operands taken. -/
def results (op : StackOp) (input : List Variable) : List Variable :=
  op.effect.results input

/-- The statement at this line, if the effect stands for one. -/
def statement? (op : StackOp) (input : List Variable) :
    Option (Option Statement) :=
  op.effect.statement? op.line input

def isTerminal (op : StackOp) : Bool := op.effect.isTerminal

end StackOp

end TestCost
