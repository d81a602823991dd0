import Marshal.Callable
import Marshal.Converter

/-! # Functions for methods

The runtime function for a host method. A static method whose result and parameters need no conversion
is its own function. For any other a wrapper function is written: it converts each of its parameters to
the host, one on each line, and calls the method on them. -/

namespace Marshal

namespace RuntimeFunction

/-- Whether each of the types has an identity strategy; types after the first that has not are not looked at. -/
def allIdentity (k : Converter) (cat : Catalog) : List HostType → Except ConversionError Bool
  | [] => .ok true
  | t :: rest => do
    let s ← k.select cat t
    if s.isIdentity then allIdentity k cat rest else return false

/-- Whether the method can be used as a runtime function as it is. Its result must have a strategy anyway. -/
def isDirect (k : Converter) (cat : Catalog) (m : Method) : Except ConversionError Bool := do
  let s ← k.select cat m.returns
  if m.isStatic && s.isIdentity then allIdentity k cat m.paramTypes else return false

def formals (s : Settings) (m : Method) : List String :=
  (List.range m.params.length).map fun i => s.members.parameterStem ++ i.repr

/-- The converted arguments, with a comma and a line break between every two. -/
def arguments (nest : Nesting) : List (HostType × String) → Emission Unit
  | [] => pure ()
  | [(t, name)] => nest t name .fromRuntime
  | (t, name) :: more => do
    nest t name .fromRuntime
    .printLine ", "
    arguments nest more

/-- Calls of instance methods go through the value that is being converted. -/
def wrapper (s : Settings) (nest : Nesting) (receiver : String)
    (owner : ClassDecl) (m : Method) : Emission Unit := do
  .printLine ("function(" ++ ", ".intercalate (formals s m) ++ ") \x7b")
  .indent
  .print "return "
  if !m.isStatic then .print (receiver ++ ".")
  .printLine (methodReference owner m ++ "(")
  .indent
  .indent
  arguments nest (m.paramTypes.zip (formals s m))
  .outdent
  .outdent
  .printLine ");"
  .outdent
  .print "\x7d"

def function (k : Converter) (cat : Catalog) (nest : Nesting)
    (receiver : String) (owner : ClassDecl) (m : Method) : Emission Unit := do
  if ← .ofExcept (isDirect k cat m) then .print (methodReference owner m)
  else wrapper k.settings nest receiver owner m

end RuntimeFunction

end Marshal
