import Marshal.Declaration
import Std.Data.TreeMap

/-! # The catalog of declarations

Declarations in the order in which they were made, with an index from fingerprints to positions. A
declaration whose fingerprint is taken is refused and leaves the catalog as it is. The runtime types
are the ones that every conversion relies on. -/

namespace Marshal

inductive CatalogError
  | duplicate (name : String)
  | unknownSupertype (name referencedBy : String)
  | cyclic (name : String)
deriving DecidableEq, Repr

def CatalogError.message : CatalogError → String
  | duplicate name => "duplicate type: '" ++ name ++ "' is already registered"
  | unknownSupertype name user => "type not found: '" ++ name ++ "' (referenced by '" ++ user ++ "')"
  | cyclic name => "cyclic inheritance involving '" ++ name ++ "'"

structure Catalog where
  entries : Array ClassDecl := #[]
  index : Std.TreeMap Fingerprint Nat := {}

namespace Catalog

def empty : Catalog := {}

instance : Inhabited Catalog := ⟨empty⟩

def size (cat : Catalog) : Nat := cat.entries.size

def isEmpty (cat : Catalog) : Bool := cat.entries.isEmpty

/-! ### Looking up -/

def contains (cat : Catalog) (id : Fingerprint) : Bool := cat.index.contains id

def find? (cat : Catalog) (id : Fingerprint) : Option ClassDecl := cat.index[id]?.bind (cat.entries[·]?)

/-- The declaration known by the fingerprint of the name, which is taken as it stands. -/
def named? (cat : Catalog) (name : String) : Option ClassDecl := cat.find? (.ofName name)

/-- The declaration that a type refers to. Only class references refer to one. -/
def declOf? (cat : Catalog) (t : HostType) : Option ClassDecl := t.classRef?.bind (cat.find? ·.id)

/-- The superclass counts by its fingerprint alone, whatever kind of type it is. -/
def superclass? (cat : Catalog) (c : ClassDecl) : Option ClassDecl := c.superclass.bind (cat.find? ·.fingerprint)

/-! ### Declaring -/

def store (cat : Catalog) (c : ClassDecl) : Catalog :=
  ⟨cat.entries.push c, cat.index.insert c.id cat.entries.size⟩

def declare (cat : Catalog) (c : ClassDecl) : Except CatalogError Catalog :=
  if cat.contains c.id then .error (.duplicate c.name.source) else .ok (cat.store c)

/-- Declares one after the other up to the first that is refused. What was declared before stays. -/
def declareAll (cat : Catalog) : List ClassDecl → Catalog × Except CatalogError Unit
  | [] => (cat, .ok ())
  | c :: rest =>
    match cat.declare c with
    | .error e => (cat, .error e)
    | .ok cat' => declareAll cat' rest

end Catalog

/-! ### Runtime types -/

namespace RuntimeType

def object : String := "java.lang.Object"
def string : String := "java.lang.String"
def handle : String := "com.google.gwt.core.client.JavaScriptObject"
def callable : String := "com.google.gwt.jsio.client.JSFunction"
def extractor : String := "com.google.gwt.jsio.client.impl.Extractor"

def names : List String := [object, string, handle, callable, extractor]

def declarations : List ClassDecl :=
  [.classNamed object,
   { ClassDecl.classNamed string with superclass := some (.named object), modifiers := { isFinal := true } },
   { ClassDecl.classNamed handle with superclass := some (.named object) },
   .interfaceNamed callable,
   .interfaceNamed extractor]

end RuntimeType

def Catalog.runtime : Catalog := RuntimeType.declarations.foldl .store .empty

end Marshal
