import TestCost.ClassName
import TestCost.Code.Fault
import TestCost.Decimal.Shortest

/-!
# Constant pools

Code and members of a class name everything by an index into the constant
pool of the class. An entry may refer to other entries, and nothing
guarantees that an index leads to an entry of the right kind. The views at
the end of this module follow the references that one use of an index
needs and refuse an entry of another kind.
-/

namespace TestCost

/-- One slot of a constant pool. -/
inductive PoolEntry where
  /-- The first slot, or the second slot of a wide number. -/
  | empty
  | utf8 (value : String)
  | integer (value : Int)
  | float (bits : Nat)
  | long (value : Int)
  | double (bits : Nat)
  | classRef (name : Nat)
  | string (text : Nat)
  | fieldRef (owner nameAndType : Nat)
  | methodRef (owner nameAndType : Nat)
  | interfaceMethodRef (owner nameAndType : Nat)
  | nameAndType (name descriptor : Nat)
  | methodHandle (kind reference : Nat)
  | methodType (descriptor : Nat)
  | dynamic (bootstrap nameAndType : Nat)
  | invokeDynamic (bootstrap nameAndType : Nat)
  | moduleRef (name : Nat)
  | packageRef (name : Nat)
  deriving Inhabited

namespace PoolEntry

/-- A number of two words takes two slots. -/
def isWide : PoolEntry → Bool
  | long _ | double _ => true
  | _ => false

/-- The entry as it is shown in a fault: its kind and its parts. -/
def text : PoolEntry → String
  | empty => "Empty"
  | utf8 value => record "Utf8" [("value", value)]
  | integer value => record "Integer" [("value", toString value)]
  | float bits =>
    record "Float"
      [("value", (Decimal.single.read bits).text Decimal.Scaled.marked)]
  | long value => record "Long" [("value", toString value)]
  | double bits =>
    record "Double"
      [("value", (Decimal.double.read bits).text Decimal.Scaled.marked)]
  | classRef name => record "Class" [("name_index", toString name)]
  | string value => record "String" [("string_index", toString value)]
  | fieldRef owner described => member "Fieldref" owner described
  | methodRef owner described => member "Methodref" owner described
  | interfaceMethodRef owner described =>
    member "InterfaceMethodref" owner described
  | nameAndType name descriptor =>
    record "NameAndType" [("name_index", toString name),
      ("descriptor_index", toString descriptor)]
  | methodHandle kind reference =>
    record "MethodHandle"
      [("reference_kind", toString kind),
        ("reference_index", toString reference)]
  | methodType descriptor =>
    record "MethodType" [("descriptor_index", toString descriptor)]
  | dynamic bootstrap described => site "Dynamic" bootstrap described
  | invokeDynamic bootstrap described =>
    site "InvokeDynamic" bootstrap described
  | moduleRef name => record "Module" [("name_index", toString name)]
  | packageRef name => record "Package" [("name_index", toString name)]
where
  record (kind : String) (parts : List (String × String)) : String :=
    kind ++ " \x7b " ++ String.intercalate ", " (parts.map fun (k, v) =>
      k ++ ": " ++ v) ++ " \x7d"
  member (kind : String) (owner described : Nat) : String :=
    record kind [("class_index", toString owner),
      ("name_and_type_index", toString described)]
  site (kind : String) (bootstrap described : Nat) : String :=
    record kind [("bootstrap_method_attr_index", toString bootstrap),
      ("name_and_type_index", toString described)]

end PoolEntry

/-- The constant pool of a class. -/
abbrev Pool := Array PoolEntry

/-- A field or method that code names. -/
structure MemberRef where
  owner : String
  name : String
  descriptor : String
  deriving DecidableEq, Inhabited

namespace Pool

/-- The text at an index. -/
def utf8 (pool : Pool) (index : Nat) : Except CodeFault String :=
  match pool[index]? with
  | some (.utf8 value) => .ok value
  | _ => .error (.badConstant index .utf8)

/-- The dotted name of the class at an index. -/
def className (pool : Pool) (index : Nat) : Except CodeFault String :=
  match pool[index]? with
  | some (.classRef name) => (pool.utf8 name).map ClassName.dotted
  | _ => .error (.badConstant index .classRef)

/-- The name and the descriptor at an index. -/
def nameAndType (pool : Pool) (index : Nat) :
    Except CodeFault (String × String) :=
  match pool[index]? with
  | some (.nameAndType name descriptor) => do
    let name ← pool.utf8 name
    let descriptor ← pool.utf8 descriptor
    return (name, descriptor)
  | _ => .error (.badConstant index .nameAndType)

/-- The field or method at an index. -/
def member (pool : Pool) (index : Nat) : Except CodeFault MemberRef :=
  match pool[index]? with
  | some (.fieldRef owner nameAndType)
  | some (.methodRef owner nameAndType)
  | some (.interfaceMethodRef owner nameAndType) => do
    let (name, descriptor) ← pool.nameAndType nameAndType
    let owner ← pool.className owner
    return { owner, name, descriptor }
  | _ => .error (.badConstant index .memberRef)

/-- The name and the descriptor of the dynamic call site at an index. -/
def callSite (pool : Pool) (index : Nat) : Except CodeFault (String × String) :=
  match pool[index]? with
  | some (.invokeDynamic _ nameAndType) => pool.nameAndType nameAndType
  | _ => .error (.badConstant index .invokeDynamic)

/-- The constant that is pushed when the entry at an index is loaded. -/
def loadable (pool : Pool) (index : Nat) : Except CodeFault Constant :=
  match pool[index]? with
  | some (.integer value) => .ok { value := toString value, type := .int }
  | some (.float bits) =>
    .ok { value := (Decimal.single.read bits).text Decimal.Scaled.plain,
          type := .float }
  | some (.long value) => .ok { value := toString value, type := .long }
  | some (.double bits) =>
    .ok { value := (Decimal.double.read bits).text Decimal.Scaled.plain,
          type := .double }
  | some (.string text) => do
    let value ← pool.utf8 text
    return { value, type := .reference }
  | some (.classRef _) => do
    let name ← pool.className index
    return { value := name ++ ".class", type := .reference }
  | some (.methodType descriptor) => do
    let value ← pool.utf8 descriptor
    return { value, type := .reference }
  | some (.methodHandle _ _) => .ok (.unknown .reference)
  | some (.dynamic _ nameAndType) => do
    let (_, descriptor) ← pool.nameAndType nameAndType
    match Descriptor.fieldType? descriptor with
    | some type => return .unknown type
    | none => throw (.badDescriptor descriptor)
  | _ => .error (.badConstant index .loadable)

end Pool

end TestCost
