import TestCost.Total
import TestCost.ValueType

/-!
# Descriptors

A descriptor is the text by which a class file gives the type of a field
or of a method: `I`, `[Ljava/lang/String;`, `(IJ)V`. The package only
needs the kinds of the values, so reading a descriptor forgets the names
of classes and the number of array dimensions.

A field descriptor is judged by its first letter alone. A method
descriptor is read type by type up to its result; what follows the result
is not looked at.

## Main results

* `readType_length` — reading one type consumes text, which is what lets
  the parameter list be read by recursion on the length of the text.
-/

namespace TestCost

/-- Kinds of the parameters and of the result of a method. -/
structure MethodType where
  parameters : List ValueType
  result : ValueType
  deriving DecidableEq

/-- Slots taken by the arguments of a call, the receiver apart. -/
def MethodType.parameterSlots (m : MethodType) : Nat :=
  total (m.parameters.map ValueType.slots)

namespace Descriptor

/-- Kind of the field with this descriptor. -/
def fieldType? (descriptor : String) : Option ValueType :=
  descriptor.toList.head?.bind ValueType.ofCode?

/-- The text after the `;` that ends a class name. -/
def afterName : List Char → Option (List Char)
  | [] => none
  | ';' :: rest => some rest
  | _ :: rest => afterName rest

/-- One type that is not an array, and the text after it. -/
def readBase : List Char → Option (ValueType × List Char)
  | [] => none
  | 'L' :: rest => (afterName rest).map fun after => (.reference, after)
  | '[' :: _ => none
  | c :: rest => (ValueType.ofCode? c).map fun t => (t, rest)

/-- An array has at most this many dimensions. -/
def maxDimensions : Nat := 255

/-- One type and the text after it. -/
def readType (text : List Char) : Option (ValueType × List Char) :=
  let dimensions := (text.takeWhile (· == '[')).length
  if dimensions = 0 then readBase text
  else if maxDimensions < dimensions then none
  else (readBase (text.drop dimensions)).map fun (_, rest) => (.reference, rest)

theorem afterName_length {text rest : List Char}
    (h : afterName text = some rest) :
    rest.length < text.length := by
  fun_induction afterName text with
  | case1 => simp at h
  | case2 => simp_all
  | case3 c tail _ ih =>
    have := ih h
    simp only [List.length_cons]
    omega

theorem readBase_length {text rest : List Char} {t : ValueType}
    (h : readBase text = some (t, rest)) : rest.length < text.length := by
  unfold readBase at h
  split at h
  · simp at h
  · next tail =>
    simp only [Option.map_eq_some_iff, Prod.mk.injEq] at h
    obtain ⟨after, hafter, -, rfl⟩ := h
    have := afterName_length hafter
    simp only [List.length_cons]
    omega
  · simp at h
  · simp only [Option.map_eq_some_iff, Prod.mk.injEq] at h
    obtain ⟨-, -, -, rfl⟩ := h
    simp

theorem readType_length {text rest : List Char} {t : ValueType}
    (h : readType text = some (t, rest)) : rest.length < text.length := by
  unfold readType at h
  simp only at h
  split at h
  · exact readBase_length h
  · split at h
    · simp at h
    · simp only [Option.map_eq_some_iff, Prod.exists, Prod.mk.injEq] at h
      obtain ⟨_, after, hbase, -, rfl⟩ := h
      have := readBase_length hbase
      simp only [List.length_drop] at this
      omega

/-- Kinds up to the closing parenthesis, and the text after it. -/
def readParameters (text : List Char) : Option (List ValueType × List Char) :=
  if text.head? = some ')' then some ([], text.tail)
  else
    match _h : readType text with
    | none => none
    | some (t, rest) =>
      (readParameters rest).map fun (types, after) => (t :: types, after)
termination_by text.length
decreasing_by exact readType_length _h

/-- Kinds of a method with this descriptor; `none` when the text is not a
parenthesised list of types followed by a type. -/
def methodType? (descriptor : String) : Option MethodType :=
  match descriptor.toList with
  | '(' :: text =>
    (readParameters text).bind fun (parameters, after) =>
      (readType after).map fun (result, _) => { parameters, result }
  | _ => none

end Descriptor

end TestCost
