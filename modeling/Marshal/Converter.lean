import Marshal.Strategy

/-! # Converters

A converter is a list of strategies under common settings. A type is converted by the first strategy that
accepts it, so that strategies appended at the end never change what is decided before them. -/

namespace Marshal

structure Converter where
  settings : Settings := {}
  strategies : List Strategy := []

namespace Converter

/-- The built-in strategies; the peers are those of the catalog as it is now. -/
def builtIn (cat : Catalog) (s : Settings) : Converter :=
  ⟨s, [.identity, .callable, .peering (.ofCatalog cat s)]⟩

def append (k : Converter) (more : List Strategy) : Converter := { k with strategies := k.strategies ++ more }

def select (k : Converter) (cat : Catalog) (t : HostType) : Except ConversionError Strategy :=
  match k.strategies.find? (·.accepts cat k.settings t) with
  | some s => .ok s
  | none => .error (.unresolvable t.source)

def defaultValue (k : Converter) (cat : Catalog) (t : HostType) : Except ConversionError String :=
  (k.select cat t).map (·.defaultValue cat t)

end Converter

end Marshal
