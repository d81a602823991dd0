import Marshal.Proofs.Assignability
import Marshal.Proofs.Lineages

/-! # What a valid hierarchy guarantees

In a hierarchy that validation accepts, the lineage of every declared class goes on to a class without a superclass,
and what can be assigned to what is a partial order of the declared classes. -/

namespace Marshal.Catalog
open Relation
variable {cat : Catalog}

/-- Two classes that are below each other are the same. -/
theorem extends_antisymm (hno : ∀ c, ¬TransGen cat.Extends c c) {c d : ClassDecl} (hcd : ReflTransGen cat.Extends c d)
    (hdc : ReflTransGen cat.Extends d c) : c = d := by
  rcases reflTransGen_iff_eq_or_transGen.mp hcd with rfl | hcd
  · rfl
  · exact absurd (hcd.trans_left hdc) (hno c)

/-- In a valid hierarchy the lineage of a declared class leads from each class to its superclass up to one that has
    none, and the class can be assigned to every class on it. Between declared classes, assignability is reflexive,
    transitive and antisymmetric. -/
theorem valid_hierarchy_ordered (hcat : cat.Reachable) (hvalid : cat.validate = .ok ()) :
    (∀ c ∈ cat.entries,
      (∃ below root, cat.lineage c = below ++ [root] ∧ root.superclass = none) ∧
      (cat.lineage c).IsChain cat.Inherits ∧
      ∀ d ∈ cat.lineage c, d ∈ cat.entries ∧ cat.assignable c.type d.type = true) ∧
    (∀ c ∈ cat.entries, cat.assignable c.type c.type = true) ∧
    (∀ c ∈ cat.entries, ∀ d ∈ cat.entries, ∀ e ∈ cat.entries,
      cat.assignable c.type d.type = true → cat.assignable d.type e.type = true →
        cat.assignable c.type e.type = true) ∧
    ∀ c ∈ cat.entries, ∀ d ∈ cat.entries,
      cat.assignable c.type d.type = true → cat.assignable d.type c.type = true → c = d := by
  have h := hcat.indexed
  obtain ⟨hresolved, hno⟩ := h.wellFormed_of_validate hvalid
  refine ⟨fun c hc => ⟨h.lineage_ends_at_root hresolved hno hc, cat.lineage_isChain c, fun d hd => ?_⟩,
    fun c _ => h.assignable_of_extends .refl, fun c hc d hd e he hcd hde => ?_, fun c hc d hd hcd hdc => ?_⟩
  · exact ⟨h.mem_entries_of_mem_lineage hc hd, h.assignable_of_extends (h.extends_of_mem_lineage hc hd)⟩
  · rw [h.assignable_iff_extends hc hd] at hcd
    rw [h.assignable_iff_extends hd he] at hde
    exact h.assignable_of_extends (hcd.trans hde)
  · rw [h.assignable_iff_extends hc hd] at hcd
    rw [h.assignable_iff_extends hd hc] at hdc
    exact extends_antisymm hno hcd hdc

/-! A class below two interfaces, by its superclass and by itself, that are both below a third. -/

def shape : ClassDecl := .interfaceNamed "draw.Shape"

def filled : ClassDecl := { ClassDecl.interfaceNamed "draw.Filled" with interfaces := [shape.type] }

def framed : ClassDecl := { ClassDecl.interfaceNamed "draw.Framed" with interfaces := [shape.type] }

def figure : ClassDecl :=
  { ClassDecl.classNamed "draw.Figure" with
    superclass := some (.named RuntimeType.object), interfaces := [filled.type] }

def square : ClassDecl :=
  { ClassDecl.classNamed "draw.Square" with superclass := some figure.type, interfaces := [framed.type, framed.type] }

/-- Each class is declared before the ones that it refers to. -/
def drawing : Catalog := (Catalog.runtime.declareAll [square, figure, framed, filled, shape]).1

-- Stated together, so that the catalog is evaluated once.
theorem drawing_evaluated :
    drawing.validate = .ok () ∧ (∀ c ∈ [square, figure, filled, shape], c ∈ drawing.entries) ∧
      drawing.assignable square.type figure.type = true ∧ drawing.assignable figure.type filled.type = true ∧
      drawing.assignable filled.type shape.type = true ∧ shape ≠ square := by
  decide +kernel

theorem valid_hierarchy_ordered_drawing :
    drawing.Reachable ∧ drawing.validate = .ok () ∧
      (∃ below root, drawing.lineage square = below ++ [root] ∧ root.superclass = none) ∧
      drawing.assignable square.type shape.type = true ∧ drawing.assignable shape.type square.type ≠ true := by
  obtain ⟨hvalid, hmem, hsquare, hfigure, hfilled, hne⟩ := drawing_evaluated
  simp only [List.forall_mem_cons, List.not_mem_nil, false_implies, implies_true, and_true] at hmem
  obtain ⟨hms, hmf, hmi, hmp⟩ := hmem
  have hcat : drawing.Reachable := Reachable.runtime.declareAll _
  obtain ⟨hlineage, -, htrans, hantisymm⟩ := valid_hierarchy_ordered hcat hvalid
  have hshape := htrans square hms figure hmf shape hmp hsquare (htrans figure hmf filled hmi shape hmp hfigure hfilled)
  refine ⟨hcat, hvalid, (hlineage square hms).1, hshape, fun hback => ?_⟩
  exact hne (hantisymm shape hmp square hms hback hshape)

end Marshal.Catalog
