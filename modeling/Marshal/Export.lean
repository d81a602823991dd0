import Marshal.Converter.Emission

/-! # Exports

The methods of a class that are tagged as exported become properties of a runtime object, each under its
own name or under the one that a tag gives. Along the lineage the nearest method of a name counts. Besides
the exports, a runtime object can be bound to a host instance, and a class can tell how its runtime
objects are made. -/

namespace Marshal

structure Export where
  name : String
  owner : ClassDecl
  method : Method
deriving DecidableEq, Repr, Inhabited

namespace Export

def ofClass (s : Settings) (c : ClassDecl) : List Export :=
  (c.methods.filter (·.tags.has s.tags.exported)).map fun m =>
    ⟨(m.tags.single? s.tags.fieldName).getD m.name, c, m⟩

/-- Keeps the first export of each name, and none of a name that is taken. -/
def unshadowed (taken : List String) : List Export → List Export
  | [] => []
  | e :: rest => if e.name ∈ taken then unshadowed taken rest else e :: unshadowed (e.name :: taken) rest

def all (cat : Catalog) (s : Settings) (c : ClassDecl) : List Export :=
  unshadowed [] ((cat.lineage c).flatMap (ofClass s))

end Export

namespace Converter

def exportStatements (k : Converter) (cat : Catalog) (host : Conversion) (target : String) :
    List Export → Emission Unit
  | [] => pure ()
  | e :: rest => do
    .print (target ++ "." ++ e.name ++ " = ")
    RuntimeFunction.function k cat (k.nest cat host) host.name e.owner e.method
    .printLine ";"
    exportStatements k cat host target rest

/-- Assigns every export of the class to the object `target`; instance methods are called on `receiver`. -/
def exports (k : Converter) (cat : Catalog) (c : ClassDecl) (target receiver : String) : Emission Unit :=
  k.exportStatements cat ⟨c.type, receiver, []⟩ target (Export.all cat k.settings c)

/-- Leads from the object back to the instance, and then exports onto it. -/
def binding (k : Converter) (cat : Catalog) (c : ClassDecl) (target receiver : String) : Emission Unit := do
  .printLine (target ++ "." ++ k.settings.members.backReference ++ " = " ++ receiver ++ ";")
  k.exports cat c target receiver

def constructorExpr? (k : Converter) (c : ClassDecl) (m : Option Method) : Option String :=
  (m.bind (·.tags.single? k.settings.tags.constructorExpr)).or (c.tags.single? k.settings.tags.constructorExpr)

def construction (k : Converter) (c : ClassDecl) (m : Option Method) : Emission Unit :=
  match k.constructorExpr? c m with
  | some expr => .printLine ("return new " ++ expr ++ "();")
  | none => .fail (.missingConstructor c.name.source k.settings.tags.constructorExpr)

/-! ### Writing

Either all of the statements are written or none. -/

def writeExports (k : Converter) (cat : Catalog) (c : ClassDecl) (target receiver : String) (w : Writer) :
    Option (Except ConversionError Unit × Writer) :=
  w.transact (k.exports cat c target receiver)

def writeBinding (k : Converter) (cat : Catalog) (c : ClassDecl) (target receiver : String) (w : Writer) :
    Option (Except ConversionError Unit × Writer) :=
  w.transact (k.binding cat c target receiver)

/-- A missing constructor is noticed before anything is written. -/
def writeConstruction (k : Converter) (c : ClassDecl) (m : Option Method) (w : Writer) :
    Except ConversionError Unit × Writer :=
  w.emit (k.construction c m)

end Converter

end Marshal
