import Marshal.Catalog.Lineage
import Marshal.Conversion.Error
import Marshal.Settings

/-! # Conversions

A conversion concerns a value of a type, known by a name in the generated code, inside a chain of enclosing
conversions. A callable cannot be converted inside its own conversion, and chains have bounded length;
other types may recur. -/

namespace Marshal

/-- The enclosing conversions are known by the fingerprints of their types, outermost first. -/
structure Conversion where
  type : HostType
  name : String
  enclosing : List Fingerprint := []
deriving DecidableEq, Repr, Inhabited

namespace Conversion

def depth (c : Conversion) : Nat := c.enclosing.length

/-- Callables are what can be assigned to the callable marker. -/
def isCallable (cat : Catalog) (s : Settings) (t : HostType) : Bool := cat.assignable t s.callableType

/-- Whether the type is a callable that is being converted already. -/
def reenters (cat : Catalog) (s : Settings) (c : Conversion) (t : HostType) : Bool :=
  match t.classRef? with
  | none => false
  | some r => (r.id == c.type.fingerprint || c.enclosing.contains r.id) && isCallable cat s t

def nested (cat : Catalog) (s : Settings) (c : Conversion) (t : HostType) (name : String) :
    Except ConversionError Conversion :=
  if c.reenters cat s t || decide (s.maxDepth < c.depth + 1) then .error (.recursive t.source (c.depth + 1))
  else .ok ⟨t, name, c.enclosing ++ [c.type.fingerprint]⟩

theorem nested_of_maxDepth_le {cat : Catalog} {s : Settings} {c : Conversion} {t : HostType} {name : String}
    (h : s.maxDepth ≤ c.depth) : c.nested cat s t name = .error (.recursive t.source (c.depth + 1)) := by
  rw [nested, if_pos]
  simp only [Bool.or_eq_true, decide_eq_true_eq]
  exact Or.inr (by omega)

theorem depth_of_nested {cat : Catalog} {s : Settings} {c c' : Conversion} {t : HostType} {name : String}
    (h : c.nested cat s t name = .ok c') : c'.depth = c.depth + 1 := by
  unfold nested at h
  split at h
  · cases h
  · cases h
    simp [depth]

end Conversion

end Marshal
