import TestCost.ClassFile.Basic
import TestCost.Class.Basic
import TestCost.Code.Reading
import TestCost.Method.Decoding

/-!
# Loading classes

From the bytes of a class file to a decoded class. Declarations are looked
at in the order of the file: the name of the class, its superclass, its
fields, then its methods one by one, and the first fault ends loading.
-/

namespace TestCost

namespace Access

/-- Access flags as bits of a word. -/
def isSet (flags mask : Nat) : Bool := flags &&& mask != 0

def publicMask : Nat := 0x0001

def privateMask : Nat := 0x0002

def protectedMask : Nat := 0x0004

def staticMask : Nat := 0x0008

/-- Who can call a member with these flags. -/
def visibility (flags : Nat) : Visibility :=
  if isSet flags publicMask then .publicAccess
  else if isSet flags privateMask then .privateAccess
  else if isSet flags protectedMask then .protectedAccess
  else .packageAccess

end Access

namespace ClassModel

/-- A declared field. -/
def loadField (pool : Pool) (owner : String) (entry : MemberEntry) :
    Except CodeFault Field := do
  let name ← pool.utf8 entry.name
  let descriptor ← pool.utf8 entry.descriptor
  match Descriptor.fieldType? descriptor with
  | some type =>
    return { owner, name, type
             isStatic := Access.isSet entry.access Access.staticMask
             isPrivate := Access.isSet entry.access Access.privateMask }
  | none => throw (.badDescriptor descriptor)

/-- What a class declares about a method. -/
def loadHeader (pool : Pool) (owner : String) (entry : MemberEntry) :
    Except CodeFault MethodHeader := do
  let name ← pool.utf8 entry.name
  let descriptor ← pool.utf8 entry.descriptor
  return { owner, name, descriptor
           visibility := Access.visibility entry.access
           isStatic := Access.isSet entry.access Access.staticMask }

/-- A declared method with its body. -/
def loadMethod (pool : Pool) (owner : String) (entry : MemberEntry) :
    Except LoadFault Method := do
  let header ← (loadHeader pool owner entry).mapError .declaration
  let listing ← match entry.bodies.head? with
    | none => pure none
    | some body =>
      ((Listing.read pool body).map some).mapError
        (.body owner header.signature 0)
  Method.decode header listing

/-- The class that a class file declares. -/
def ofClassFile (file : ClassFile) : Except LoadFault ClassModel := do
  let name ← (file.pool.className file.thisClass).mapError .declaration
  let superName ←
    if file.superClass = 0 then pure none
    else ((file.pool.className file.superClass).map some).mapError .declaration
  let fields ← (file.fields.mapM (loadField file.pool name)).mapError
    .declaration
  let methods ← file.methods.mapM (loadMethod file.pool name)
  return { name, superName, fields, methods }

/-- The class in these bytes; `requested` is the name it was asked for by,
which a fault of the file names. -/
def parse (requested : String) (bytes : Bytes) :
    Except LoadFault ClassModel := do
  let file ← (ClassFile.parse bytes).mapError (.malformed requested)
  ofClassFile file

end ClassModel

end TestCost
