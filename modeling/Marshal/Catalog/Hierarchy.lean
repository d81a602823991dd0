import Marshal.Catalog
import Marshal.Digraph

/-! # Well-formed hierarchies

A hierarchy is well formed when every supertype is declared and no class is above itself. A missing
supertype is reported first, the first in the order of the declarations and of their supertypes. -/

namespace Marshal.Catalog

def supertypePositions (cat : Catalog) (c : ClassDecl) : Except CatalogError (List Nat) :=
  c.supertypes.mapM fun t =>
    match cat.index[t.fingerprint]? with
    | some i => .ok i
    | none => .error (.unknownSupertype t.source c.name.source)

/-- An edge from each declaration to each of its supertypes, by position. -/
def hierarchy (cat : Catalog) : Except CatalogError Digraph := do
  let edges ← cat.entries.toList.zipIdx.mapM fun (c, i) => do
    let targets ← cat.supertypePositions c
    return targets.map ((i, ·))
  return ⟨cat.size, edges.flatten⟩

def nameAt (cat : Catalog) (i : Nat) : String := ((cat.entries[i]?).map (·.name.source)).getD ""

def validate (cat : Catalog) : Except CatalogError Unit := do
  let g ← cat.hierarchy
  match g.cyclicNode? with
  | some i => .error (.cyclic (cat.nameAt i))
  | none => .ok ()

end Marshal.Catalog
