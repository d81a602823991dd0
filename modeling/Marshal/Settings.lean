import Marshal.Catalog

/-! # Settings

The member names, the types and the tags that conversions look for, the indentation of the generated
code, and how deep conversions may be nested. Names of types are written in source form. -/

namespace Marshal

structure MemberNames where
  /-- The field of a peer that holds its runtime handle. -/
  peerField : String := "jsoPeer"
  /-- The static method that makes a peer from a runtime handle. -/
  factoryMethod : String := "createPeer"
  extractorField : String := "__extractor"
  /-- The runtime property that leads from a handle back to its peer. -/
  backReference : String := "__gwtPeer"
  /-- The property of a callable that caches its runtime function. -/
  exportedFunction : String := "exportedFunction"
  /-- Parameters of wrapper functions are this and a number. -/
  parameterStem : String := "arg"
deriving DecidableEq, Repr, Inhabited

structure TypeNames where
  handle : String := RuntimeType.handle
  callable : String := RuntimeType.callable
  extractor : String := RuntimeType.extractor
  string : String := RuntimeType.string
deriving DecidableEq, Repr, Inhabited

structure TagNames where
  exported : String := "gwt.exported"
  fieldName : String := "gwt.fieldName"
  constructorExpr : String := "gwt.constructor"
deriving DecidableEq, Repr, Inhabited

structure Settings where
  members : MemberNames := {}
  types : TypeNames := {}
  tags : TagNames := {}
  indentUnit : String := "  "
  maxDepth : Nat := 32
deriving DecidableEq, Repr, Inhabited

namespace Settings

def handleType (s : Settings) : HostType := .named s.types.handle

def callableType (s : Settings) : HostType := .named s.types.callable

def extractorType (s : Settings) : HostType := .named s.types.extractor

end Settings

end Marshal
