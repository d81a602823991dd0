import Marshal.Conversion.Error
import Marshal.Settings

/-! # Callables

A callable type stands for one function, the exported method. It is the method that the type designates
by a tag; a type that designates none must declare a single method. -/

namespace Marshal

def exportedMethod (s : Settings) (c : ClassDecl) : Except ConversionError Method :=
  match c.methods, c.tags.single? s.tags.exported with
  | [], _ => .error (.noFunctions c.name.source)
  | [m], none => .ok m
  | ms@(_ :: _ :: _), none => .error (.ambiguousExport c.name.source ms.length s.tags.exported)
  | ms, some name =>
    match ms.find? (·.name == name) with
    | some m => .ok m
    | none => .error (.exportedMethodMissing c.name.source name)

def methodReference (owner : ClassDecl) (m : Method) : String :=
  "@" ++ owner.name.source ++ "::" ++ m.name ++ "(" ++ m.signature ++ ")"

end Marshal
