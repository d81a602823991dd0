import Marshal.Conversion
import Marshal.Text.Quoted

/-! # Conversions in diagnostics

The written form of a conversion with all that it is made of. -/

namespace Marshal

def Primitive.debugText : Primitive → String
  | void => "Void"
  | boolean => "Boolean"
  | byte => "Byte"
  | char => "Char"
  | short => "Short"
  | int => "Int"
  | long => "Long"
  | float => "Float"
  | double => "Double"

def Fingerprint.debugText (f : Fingerprint) : String := "TypeHash(" ++ f.text ++ ")"

def TypeName.debugText (n : TypeName) : String :=
  "QualifiedName \x7b package: " ++ Quoted.quote n.package ++ ", name: " ++ Quoted.quote n.simple ++ " \x7d"

def HostType.debugText : HostType → String
  | primitive p => "Primitive(" ++ p.debugText ++ ")"
  | object c => "Class(ClassRef \x7b hash: " ++ c.id.debugText ++ ", name: " ++ c.name.debugText ++ " \x7d)"
  | array e => "Array(" ++ e.debugText ++ ")"

def Conversion.debugText (c : Conversion) : String :=
  "FragmentContext \x7b return_type: " ++ c.type.debugText ++ ", parameter_name: " ++ Quoted.quote c.name ++
    ", enclosing: [" ++ ", ".intercalate (c.enclosing.map (·.debugText)) ++ "], .. \x7d"

end Marshal
