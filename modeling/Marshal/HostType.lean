import Marshal.TypeName

/-! # Host types

The types that a declaration can mention: primitives, references to classes, and arrays. A reference
carries the fingerprint and the name of its class, and two references are the same type only when both
agree. Each type has a source name, a descriptor for method signatures, and a fingerprint. -/

namespace Marshal

inductive Primitive
  | void | boolean | byte | char | short | int | long | float | double
deriving DecidableEq, Repr

namespace Primitive

def all : List Primitive := [void, boolean, byte, char, short, int, long, float, double]

def name : Primitive → String
  | void => "void"
  | boolean => "boolean"
  | byte => "byte"
  | char => "char"
  | short => "short"
  | int => "int"
  | long => "long"
  | float => "float"
  | double => "double"

def descriptor : Primitive → Char
  | void => 'V'
  | boolean => 'Z'
  | byte => 'B'
  | char => 'C'
  | short => 'S'
  | int => 'I'
  | long => 'J'
  | float => 'F'
  | double => 'D'

def isNumeric : Primitive → Bool
  | void | boolean => false
  | _ => true

def fingerprint (p : Primitive) : Fingerprint := Fingerprint.ofName p.name

def ofName? (name : String) : Option Primitive := all.find? (·.name == name)

end Primitive

structure ClassRef where
  id : Fingerprint
  name : TypeName
deriving DecidableEq, Repr, Inhabited

def ClassRef.ofName (name : TypeName) : ClassRef := ⟨name.fingerprint, name⟩

inductive HostType
  | primitive (p : Primitive)
  | object (c : ClassRef)
  | array (element : HostType)
deriving DecidableEq, Repr

namespace HostType

instance : Inhabited HostType := ⟨primitive .void⟩

/-- The class whose source form is `source`. -/
def named (source : String) : HostType := object (.ofName (.parse source))

def classRef? : HostType → Option ClassRef
  | object c => some c
  | _ => none

def primitive? : HostType → Option Primitive
  | primitive p => some p
  | _ => none

def isVoid (t : HostType) : Bool := t.primitive? == some .void

def source : HostType → String
  | primitive p => p.name
  | object c => c.name.source
  | array e => e.source ++ "[]"

def descriptor : HostType → String
  | primitive p => p.descriptor.toString
  | object c => "L" ++ c.name.binary ++ ";"
  | array e => "[" ++ e.descriptor

def fingerprint : HostType → Fingerprint
  | primitive p => p.fingerprint
  | object c => c.id
  | t@(array _) => Fingerprint.ofName t.source

/-! ### Reading

The written form of a type: `[]` for each array level after the name of a primitive or of a class. -/

/-- Reads a written type whose characters come in reverse, so that array levels come first. -/
def readReversed : List Char → HostType
  | ']' :: '[' :: rest => array (readReversed rest)
  | rest =>
    let name := String.ofList rest.reverse
    match Primitive.ofName? name with
    | some p => primitive p
    | none => named name

def read (written : String) : HostType := readReversed written.toList.reverse

end HostType

end Marshal
