/-! # Why a conversion cannot be written

Every cause names the type at fault, in source form, except a failure of the output itself. -/

namespace Marshal

inductive Direction
  /-- The runtime value of a host value. -/
  | toRuntime
  /-- The host value of a runtime value. -/
  | fromRuntime
  /-- A reference to the function that extracts host values from a runtime collection. -/
  | extractor
deriving DecidableEq, Repr, Inhabited

namespace Direction

def all : List Direction := [toRuntime, fromRuntime, extractor]

def label : Direction → String
  | toRuntime => "toJS"
  | fromRuntime => "fromJS"
  | extractor => "extractor reference"

end Direction

inductive Convention
  | peerField | factoryMethod | extractorField
deriving DecidableEq, Repr, Inhabited

namespace Convention

def all : List Convention := [peerField, factoryMethod, extractorField]

def label : Convention → String
  | peerField => "peer field"
  | factoryMethod => "factory method"
  | extractorField => "extractor field"

end Convention

inductive ConversionError
  | noFunctions (type : String)
  | ambiguousExport (type : String) (count : Nat) (tag : String)
  | exportedMethodMissing (type method : String)
  | missingConvention (type : String) (convention : Convention) (member : String)
  | disallowedDirection (type : String) (direction : Direction) (strategy : String)
  | bareMarker (type : String)
  | unresolvable (type : String)
  | recursive (type : String) (depth : Nat)
  | unknownType (type : String)
  | missingConstructor (type tag : String)
  | writeFailed
  /-- A strategy hands a conversion on to no strategy, or round and round. -/
  | lostDelegation (type : String)
deriving DecidableEq, Repr, Inhabited

namespace ConversionError

def message : ConversionError → String
  | noFunctions t => "no functions declared in '" ++ t ++ "'"
  | ambiguousExport t count tag =>
    "ambiguous export in '" ++ t ++ "': " ++ count.repr ++
      " methods declared and no single method designated with '" ++ tag ++ "'"
  | exportedMethodMissing t method => "exported method '" ++ method ++ "' not found in '" ++ t ++ "'"
  | missingConvention t convention member =>
    "'" ++ t ++ "' has no " ++ convention.label ++ " named '" ++ member ++ "'"
  | disallowedDirection t direction strategy =>
    direction.label ++ " is not allowed for '" ++ t ++ "' (" ++ strategy ++ ")"
  | bareMarker t =>
    "'" ++ t ++ "' is the callable marker type; declare a sub-interface with a concrete method"
  | unresolvable t => "no fragment generator accepts '" ++ t ++ "'"
  | recursive t depth => "recursive conversion of '" ++ t ++ "' at depth " ++ depth.repr
  | unknownType t => "unknown type '" ++ t ++ "'"
  | missingConstructor t tag => "no constructor declared for '" ++ t ++ "' (expected '" ++ tag ++ "')"
  | writeFailed => "failed to write generated code"
  | lostDelegation t => "no strategy converts '" ++ t ++ "' in the end"

def typeName? : ConversionError → Option String
  | noFunctions t | ambiguousExport t _ _ | exportedMethodMissing t _ | missingConvention t _ _
  | disallowedDirection t _ _ | bareMarker t | unresolvable t | recursive t _ | unknownType t
  | missingConstructor t _ | lostDelegation t => some t
  | writeFailed => none

end ConversionError

end Marshal
