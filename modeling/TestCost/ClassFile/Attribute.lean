import TestCost.ClassFile.Reader

/-!
# Attributes

Classes, fields, methods and code carry named attributes. The analysis
uses three of them: the code of a method, and the two tables that a
compiler adds for debuggers. All others are read only to find where they
end: the length in front of an attribute is not relied on, so each known
attribute is read by its structure, and an unknown one is a fault.

Attributes nest: code and record components have attributes of their own,
and the value of an annotation may hold annotations. Each level of nesting
takes at least one byte, so the number of levels is bounded by the length
of the file; `levels` counts down from there.
-/

namespace TestCost

/-- A range of code offsets and the handler of the exceptions in it. -/
structure HandlerEntry where
  start : Nat
  stop : Nat
  handler : Nat
  /-- Pool index of the class of exceptions, `0` for all. -/
  catchType : Nat
  deriving DecidableEq, Inhabited

/-- The line of the code from an offset on. -/
structure LineEntry where
  start : Nat
  line : Nat
  deriving DecidableEq, Inhabited

/-- The name of a slot within a range of code offsets; name and descriptor
are pool indices. -/
structure LocalEntry where
  start : Nat
  length : Nat
  name : Nat
  descriptor : Nat
  slot : Nat
  deriving DecidableEq, Inhabited

/-- A table that a compiler adds to code for debuggers. -/
inductive DebugTable where
  | lines (entries : List LineEntry)
  | locals (entries : List LocalEntry)

/-- The code of a method as the class file gives it. -/
structure CodeBody where
  code : Bytes
  handlers : List HandlerEntry
  tables : List DebugTable

/-- An attribute, as far as the analysis uses it. -/
inductive Attribute where
  | code (body : CodeBody)
  | debug (table : DebugTable)
  | other

def Attribute.body? : Attribute → Option CodeBody
  | code body => some body
  | _ => none

def Attribute.table? : Attribute → Option DebugTable
  | debug table => some table
  | _ => none

namespace ClassFile

open Reader

/-- There is nothing left to read at the innermost level. -/
private def exhausted {α : Type} : Reader α := do
  let file ← read
  let position ← get
  fail (.integerPastEnd position file.size)

def handlerEntry : Reader HandlerEntry := do
  let start ← u2
  let stop ← u2
  let handler ← u2
  let catchType ← u2
  return { start, stop, handler, catchType }

def lineEntry : Reader LineEntry := do
  let start ← u2
  let line ← u2
  return { start, line }

def localEntry : Reader LocalEntry := do
  let start ← u2
  let length ← u2
  let name ← u2
  let descriptor ← u2
  let slot ← u2
  return { start, length, name, descriptor, slot }

/-! ## Annotations -/

/-- An annotation, given how to read a value in it. -/
def annotationItem (value : Reader Unit) : Reader Unit := do
  skip u2
  skip (listOf (do skip u2; value))

/-- A value in an annotation. -/
def elementValue : (levels : Nat) → Reader Unit
  | 0 => exhausted
  | levels + 1 => do
    let tag ← u1
    match Char.ofNat tag with
    | 'B' | 'C' | 'D' | 'F' | 'I' | 'J' | 'S' | 'Z' | 's' | 'c' => skip u2
    | 'e' => skip (times u2 2)
    | '@' => annotationItem (elementValue levels)
    | '[' => skip (listOf (elementValue levels))
    | _ => fail (.unknownElementTag tag)

/-- What an annotation of a type is attached to. -/
def typeTarget : Reader Unit := do
  let kind ← u1
  match kind with
  | 0x00 | 0x01 => skip u1
  | 0x10 | 0x17 | 0x42 | 0x43 | 0x44 | 0x45 | 0x46 => skip u2
  | 0x11 | 0x12 => skip u2
  | 0x16 => skip u1
  | 0x40 | 0x41 => skip (listOf (times u2 3))
  | 0x47 | 0x48 | 0x49 | 0x4a | 0x4b => skip (times u1 3)
  | _ => pure ()

/-- An annotation of a type, with the path to the part that it is about. -/
def typeAnnotationItem (value : Reader Unit) : Reader Unit := do
  typeTarget
  let steps ← u1
  skip (times u2 steps)
  annotationItem value

/-! ## Stack maps -/

/-- The type of a slot in a stack map. -/
def verificationType : Reader Unit := do
  let tag ← u1
  if tag ≤ 6 then pure ()
  else if tag ≤ 8 then skip u2
  else fail (.unknownVerificationTag tag)

/-- A frame of a stack map. -/
def stackMapFrame : Reader Unit := do
  let frameType ← u1
  if frameType ≤ 63 then pure ()
  else if frameType ≤ 127 then verificationType
  else if frameType < 247 then fail (.unknownFrameType frameType)
  else
    skip u2
    if frameType = 247 then verificationType
    else if frameType ≤ 251 then pure ()
    else if frameType ≤ 254 then skip (times verificationType (frameType - 251))
    else
      skip (listOf verificationType)
      skip (listOf verificationType)

/-! ## Attributes by name -/

/-- The name at a pool index. -/
def attributeName (pool : Pool) (index : Nat) : Reader String :=
  match pool[index]? with
  | some (.utf8 name) => pure name
  | some entry => fail (.nameNotText entry)
  | none => fail (.nameMissing index)

/-- The body of a named attribute, given its announced length and how to
read attributes nested in it. -/
def attributeBody (nested : Reader (List Attribute)) (name : String)
    (length : Nat) :
    Reader Attribute := do
  let levels := (← read).size
  let ignored {α : Type} (content : Reader α) : Reader Attribute := do
    skip content
    return .other
  match name with
  | "Code" =>
    skip (times u2 2)
    let code ← block (← u4)
    let handlers ← listOf handlerEntry
    let tables ← nested
    return .code { code, handlers, tables := tables.filterMap Attribute.table? }
  | "LineNumberTable" => return .debug (.lines (← listOf lineEntry))
  | "LocalVariableTable" => return .debug (.locals (← listOf localEntry))
  | "LocalVariableTypeTable" => ignored (listOf localEntry)
  | "ConstantValue" | "SourceFile" | "Signature" | "NestHost" => ignored u2
  | "Synthetic" | "Deprecated" => return .other
  | "EnclosingMethod" => ignored (times u2 2)
  | "Exceptions" | "NestMembers" | "PermittedSubclasses" => ignored (listOf u2)
  | "InnerClasses" => ignored (listOf (times u2 4))
  | "BootstrapMethods" => ignored (listOf (do skip u2; skip (listOf u2)))
  | "MethodParameters" => ignored (do times (times u2 2) (← u1))
  | "Record" => ignored (listOf (do skip (times u2 2); skip nested))
  | "RuntimeVisibleAnnotations" =>
    expectBlock length
    ignored (listOf (annotationItem (elementValue levels)))
  | "RuntimeInvisibleAnnotations" =>
    ignored (listOf (annotationItem (elementValue levels)))
  | "RuntimeVisibleParameterAnnotations" =>
    ignored (do times (listOf (annotationItem (elementValue levels))) (← u1))
  | "RuntimeVisibleTypeAnnotations" =>
    ignored (listOf (typeAnnotationItem (elementValue levels)))
  | "AnnotationDefault" =>
    expectBlock length
    ignored (elementValue levels)
  | "StackMapTable" => ignored (listOf stackMapFrame)
  | _ => fail (.unknownAttribute name)

/-- One attribute, given how to read attributes nested in it. -/
def readAttribute (pool : Pool) (nested : Reader (List Attribute)) :
    Reader Attribute := do
  let name ← attributeName pool (← u2)
  let length ← u4
  attributeBody nested name length

/-- A list of attributes with at most `levels` levels of nesting. -/
def attributesWithin (pool : Pool) : (levels : Nat) → Reader (List Attribute)
  | 0 => exhausted
  | levels + 1 => listOf (readAttribute pool (attributesWithin pool levels))

/-- A list of attributes. -/
def readAttributes (pool : Pool) : Reader (List Attribute) := do
  attributesWithin pool ((← read).size + 1)

end ClassFile

end TestCost
