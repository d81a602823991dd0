import Marshal.Catalog.Lineage
import Marshal.Settings

/-! # Peers

A peer is a host object that stands for a runtime object. It is known by members that follow conventions:
a static factory that makes it from a runtime handle, a field that holds the handle, and a field that holds
an extractor. Each member is looked for along the lineage on its own, and what has the name but not the
required type does not count. A peer index keeps the members of every declared peer as they were when it
was built. -/

namespace Marshal

structure Member where
  owner : TypeName
  name : String
deriving DecidableEq, Repr, Inhabited

def Member.reference (m : Member) : String := "@" ++ m.owner.source ++ "::" ++ m.name

structure Factory where
  member : Member
  returns : HostType
  signature : String
deriving DecidableEq, Repr, Inhabited

structure PeerMembers where
  factory : Option Factory := none
  peerField : Option Member := none
  extractor : Option Member := none
deriving DecidableEq, Repr, Inhabited

namespace PeerMembers

/-- The factory that the class itself declares: static, from a handle to the very class. -/
def ownFactory (s : Settings) (c : ClassDecl) : Option Factory :=
  ((c.overloads s.members.factoryMethod).find? fun m =>
      m.isStatic && m.takes [s.handleType] && m.returns == c.type).map
    fun m => ⟨⟨c.name, m.name⟩, c.type, m.signature⟩

/-- The field that the class itself declares, if it can be assigned to the required type. -/
def ownField (cat : Catalog) (name : String) (required : HostType) (c : ClassDecl) : Option Member :=
  ((c.field? name).filter fun f => cat.assignable f.type required).map fun f => ⟨c.name, f.name⟩

/-- Each member from the nearest class of the lineage that has one. -/
def ofClass (cat : Catalog) (s : Settings) (c : ClassDecl) : PeerMembers where
  factory := (cat.lineage c).findSome? (ownFactory s)
  peerField := (cat.lineage c).findSome? (ownField cat s.members.peerField s.handleType)
  extractor := (cat.lineage c).findSome? (ownField cat s.members.extractorField s.extractorType)

def isEmpty (p : PeerMembers) : Bool := p.factory.isNone && p.peerField.isNone && p.extractor.isNone

end PeerMembers

structure PeerIndex where
  members : List (Fingerprint × PeerMembers) := []
deriving DecidableEq, Repr, Inhabited

namespace PeerIndex

def ofCatalog (cat : Catalog) (s : Settings) : PeerIndex where
  members := (cat.entries.toList.map fun c => (c.id, PeerMembers.ofClass cat s c)).filter (!·.2.isEmpty)

def size (i : PeerIndex) : Nat := i.members.length

def isEmpty (i : PeerIndex) : Bool := i.members.isEmpty

def find? (i : PeerIndex) (id : Fingerprint) : Option PeerMembers := i.members.lookup id

/-- The members for a type. Only class references have any. -/
def of? (i : PeerIndex) (t : HostType) : Option PeerMembers := t.classRef?.bind (i.find? ·.id)

end PeerIndex

end Marshal
