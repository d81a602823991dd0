import Marshal.HostType
import Marshal.Tags

/-! # Declarations

Classes and interfaces with their supertypes, methods and fields. A declaration is known by the
fingerprint of its own name; supertypes and members refer to other types by reference only. -/

namespace Marshal

structure Modifiers where
  isStatic : Bool := false
  isFinal : Bool := false
  isAbstract : Bool := false
deriving DecidableEq, Repr, Inhabited

/-- The modifiers as a bit set: static is 1, final 2 and abstract 4. -/
def Modifiers.bits (m : Modifiers) : Nat := m.isStatic.toNat + 2 * m.isFinal.toNat + 4 * m.isAbstract.toNat

structure Param where
  name : String
  type : HostType
deriving DecidableEq, Repr, Inhabited

structure Method where
  name : String
  params : List Param := []
  returns : HostType := .primitive .void
  modifiers : Modifiers := {}
  tags : Tags := {}
deriving DecidableEq, Repr, Inhabited

namespace Method

def isStatic (m : Method) : Bool := m.modifiers.isStatic

def paramTypes (m : Method) : List HostType := m.params.map (·.type)

def takes (m : Method) (types : List HostType) : Bool := m.paramTypes == types

def signature (m : Method) : String := String.join (m.paramTypes.map (·.descriptor))

end Method

structure Field where
  name : String
  type : HostType
  modifiers : Modifiers := {}
deriving DecidableEq, Repr, Inhabited

structure ClassDecl where
  id : Fingerprint
  name : TypeName
  isInterface : Bool := false
  modifiers : Modifiers := {}
  superclass : Option HostType := none
  interfaces : List HostType := []
  methods : List Method := []
  fields : List Field := []
  tags : Tags := {}
deriving DecidableEq, Repr, Inhabited

namespace ClassDecl

def ofName (name : TypeName) : ClassDecl := { id := name.fingerprint, name }

def classNamed (source : String) : ClassDecl := ofName (.parse source)

/-- The interface with this source form; it is abstract. -/
def interfaceNamed (source : String) : ClassDecl :=
  { ofName (.parse source) with isInterface := true, modifiers := { isAbstract := true } }

def type (c : ClassDecl) : HostType := .object ⟨c.id, c.name⟩

/-- The superclass, then the interfaces in order. -/
def supertypes (c : ClassDecl) : List HostType := c.superclass.toList ++ c.interfaces

def field? (c : ClassDecl) (name : String) : Option Field := c.fields.find? (·.name == name)

def method? (c : ClassDecl) (name : String) (types : List HostType) : Option Method :=
  c.methods.find? fun m => m.name == name && m.takes types

def overloads (c : ClassDecl) (name : String) : List Method := c.methods.filter (·.name == name)

/-- Where the methods of the name stand among all methods. -/
def positionsNamed (c : ClassDecl) (name : String) : List Nat :=
  (c.methods.zipIdx.filter (·.1.name == name)).map (·.2)

end ClassDecl

end Marshal
