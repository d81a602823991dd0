import Marshal.Proofs.Hierarchies
import Mathlib.Control.Monad.Basic

/-! # What validation decides

Validation finds the first reference that leads nowhere, or else a class on a cycle of references, or else
nothing. -/

namespace Marshal.Catalog
open Relation
variable {cat : Catalog}

/-! ### Classes and their positions -/

theorem Extends.mem_left {c d : ClassDecl} (h : TransGen cat.Extends c d) : c ∈ cat.entries := by
  obtain ⟨_, h, -⟩ := TransGen.head'_iff.mp h
  exact h.1

theorem bounded_of_hierarchy {g : Digraph} (h : cat.Indexed) (hg : cat.hierarchy = .ok g) : g.Bounded := by
  intro i j hij
  obtain ⟨c, hc, t, -, hj⟩ := (edge_of_hierarchy hg).mp hij
  obtain ⟨d, hd, -⟩ := (h _ _).mp hj
  obtain ⟨edges, -, rfl⟩ := edges_of_hierarchy hg
  exact ⟨(Array.getElem?_eq_some_iff.mp hc).1, (Array.getElem?_eq_some_iff.mp hd).1⟩

theorem Indexed.edge_iff (h : cat.Indexed) {g : Digraph} (hg : cat.hierarchy = .ok g) {i j : Nat} :
    g.Edge i j ↔ ∃ c d, cat.entries[i]? = some c ∧ cat.entries[j]? = some d ∧ cat.Extends c d := by
  rw [edge_of_hierarchy hg]
  refine ⟨fun ⟨c, hc, t, ht, hj⟩ => ?_, fun ⟨c, d, hc, hd, _, _, t, ht, hid⟩ => ?_⟩
  · obtain ⟨d, hd, hid⟩ := (h _ _).mp hj
    exact ⟨c, d, hc, hd, Array.mem_of_getElem? hc, Array.mem_of_getElem? hd, t, ht, hid⟩
  · exact ⟨c, hc, t, ht, (h _ _).mpr ⟨d, hd, hid⟩⟩

theorem Indexed.path_of_positions (h : cat.Indexed) {g : Digraph} (hg : cat.hierarchy = .ok g) {i j : Nat}
    (hij : TransGen g.Edge i j) :
    ∃ c d, cat.entries[i]? = some c ∧ cat.entries[j]? = some d ∧ TransGen cat.Extends c d := by
  induction hij with
  | single hij =>
    obtain ⟨c, d, hc, hd, hcd⟩ := (h.edge_iff hg).mp hij
    exact ⟨c, d, hc, hd, .single hcd⟩
  | tail _ hjk ih =>
    obtain ⟨c, d, hc, hd, hcd⟩ := ih
    obtain ⟨d', e, hd', he, hde⟩ := (h.edge_iff hg).mp hjk
    rw [hd] at hd'
    cases hd'
    exact ⟨c, e, hc, he, hcd.tail hde⟩

theorem Indexed.positions_of_path (h : cat.Indexed) {g : Digraph} (hg : cat.hierarchy = .ok g) {c d : ClassDecl}
    (hcd : TransGen cat.Extends c d) {i j : Nat} (hc : cat.entries[i]? = some c) (hd : cat.entries[j]? = some d) :
    TransGen g.Edge i j := by
  induction hcd generalizing j with
  | single hcd => exact .single ((h.edge_iff hg).mpr ⟨c, _, hc, hd, hcd⟩)
  | tail _ hde ih =>
    obtain ⟨k, hk⟩ := Array.getElem?_of_mem hde.1
    exact (ih hk).tail ((h.edge_iff hg).mpr ⟨_, _, hk, hd, hde⟩)

theorem Indexed.cyclic_iff (h : cat.Indexed) {g : Digraph} (hg : cat.hierarchy = .ok g) :
    (∀ i, ¬TransGen g.Edge i i) ↔ ∀ c, ¬TransGen cat.Extends c c := by
  refine ⟨fun hno c hc => ?_, fun hno i hi => ?_⟩
  · obtain ⟨i, hi⟩ := Array.getElem?_of_mem (Extends.mem_left hc)
    exact hno i (h.positions_of_path hg hc hi hi)
  · obtain ⟨c, d, hc, hd, hcd⟩ := h.path_of_positions hg hi
    rw [hc] at hd
    cases hd
    exact hno c hcd

/-! ### Validation -/

theorem validate_of_missing {e : CatalogError} (hg : cat.hierarchy = .error e) : cat.validate = .error e := by
  rw [validate, hg]
  rfl

section
variable {g : Digraph} (hg : cat.hierarchy = .ok g)
include hg

theorem validate_of_cyclicNode {i : Nat} (hi : g.cyclicNode? = some i) :
    cat.validate = .error (.cyclic (cat.nameAt i)) := by
  rw [validate, hg]
  simp only [bind, Except.bind, hi]

theorem validate_of_acyclic (hg' : g.cyclicNode? = none) : cat.validate = .ok () := by
  rw [validate, hg]
  simp only [bind, Except.bind, hg']

end

theorem Indexed.validate_cases (h : cat.Indexed) :
    (∃ c t, cat.FirstMissing c t ∧ cat.validate = .error (.unknownSupertype t.source c.name.source)) ∨
      (cat.Resolved ∧ ∃ c, TransGen cat.Extends c c ∧ cat.validate = .error (.cyclic c.name.source)) ∨
      (cat.Resolved ∧ (∀ c, ¬TransGen cat.Extends c c) ∧ cat.validate = .ok ()) := by
  cases hg : cat.hierarchy with
  | error e =>
    obtain ⟨c, t, hfirst, rfl⟩ := h.firstMissing_of_hierarchy hg
    exact Or.inl ⟨c, t, hfirst, validate_of_missing hg⟩
  | ok g =>
    have hresolved := h.resolved_of_hierarchy hg
    have hbounded := bounded_of_hierarchy h hg
    cases hnode : g.cyclicNode? with
    | some i =>
      obtain ⟨c, d, hc, hd, hcd⟩ := h.path_of_positions hg (Digraph.cycle_of_cyclicNode? hbounded hnode)
      rw [hc] at hd
      cases hd
      have hname : cat.nameAt i = c.name.source := by simp only [nameAt, hc, Option.map_some, Option.getD_some]
      exact Or.inr (Or.inl ⟨hresolved, c, hcd, hname ▸ validate_of_cyclicNode hg hnode⟩)
    | none =>
      have hno := (h.cyclic_iff hg).mp ((Digraph.cyclicNode?_eq_none hbounded).mp hnode)
      exact Or.inr (Or.inr ⟨hresolved, hno, validate_of_acyclic hg hnode⟩)

/-- Validation decides exactly whether a hierarchy is well formed. It reports a missing supertype when some
    reference leads nowhere, and then the first such reference with the class that makes it; otherwise a cycle
    when some class is above itself, by one reference or more; otherwise nothing. -/
theorem validate_decides_hierarchy (hcat : cat.Reachable) :
    ((∃ name user, cat.validate = .error (.unknownSupertype name user)) ↔
        ∃ c ∈ cat.entries, ∃ t ∈ c.supertypes, ¬cat.Declares t.fingerprint) ∧
      (∀ name user, cat.validate = .error (.unknownSupertype name user) →
        ∃ c t, cat.FirstMissing c t ∧ name = t.source ∧ user = c.name.source) ∧
      ((∃ name, cat.validate = .error (.cyclic name)) ↔ cat.Resolved ∧ ∃ c, TransGen cat.Extends c c) ∧
      (cat.validate = .ok () ↔ cat.Resolved ∧ ∀ c, ¬TransGen cat.Extends c c) := by
  have hunresolved : (∃ c ∈ cat.entries, ∃ t ∈ c.supertypes, ¬cat.Declares t.fingerprint) ↔ ¬cat.Resolved := by
    simp only [Resolved, Classical.not_forall, exists_prop]
  rw [hunresolved]
  rcases hcat.indexed.validate_cases with ⟨c, t, hfirst, hv⟩ | ⟨hresolved, c, hc, hv⟩ | ⟨hresolved, hno, hv⟩
  · rw [hv]
    have hnot := hfirst.not_resolved
    exact ⟨⟨fun _ => hnot, fun _ => ⟨_, _, rfl⟩⟩,
      fun name user heq => ⟨c, t, hfirst, by cases heq; exact ⟨rfl, rfl⟩⟩,
      ⟨fun ⟨_, heq⟩ => (nomatch heq), fun hr => absurd hr.1 hnot⟩,
      ⟨fun heq => (nomatch heq), fun hr => absurd hr.1 hnot⟩⟩
  · rw [hv]
    exact ⟨⟨fun ⟨_, _, heq⟩ => (nomatch heq), fun hnot => absurd hresolved hnot⟩,
      fun _ _ heq => (nomatch heq),
      ⟨fun _ => ⟨hresolved, c, hc⟩, fun _ => ⟨_, rfl⟩⟩,
      ⟨fun heq => (nomatch heq), fun hr => absurd hc (hr.2 c)⟩⟩
  · rw [hv]
    exact ⟨⟨fun ⟨_, _, heq⟩ => (nomatch heq), fun hnot => absurd hresolved hnot⟩,
      fun _ _ heq => (nomatch heq),
      ⟨fun ⟨_, heq⟩ => (nomatch heq), fun ⟨_, c, hc⟩ => absurd hc (hno c)⟩,
      ⟨fun _ => ⟨hresolved, hno⟩, fun _ => rfl⟩⟩

/-- A cart and an order above each other, and a class that is only below them. -/
def tangled : Catalog :=
  (Catalog.runtime.declareAll [
    { ClassDecl.classNamed "shop.Gift" with superclass := some (.named "shop.Cart") },
    { ClassDecl.classNamed "shop.Cart" with superclass := some (.named "shop.Order") },
    { ClassDecl.classNamed "shop.Order" with
      superclass := some (.named "java.lang.Object"), interfaces := [.named "shop.Cart"] }]).1

theorem reachable_tangled : tangled.Reachable := Reachable.runtime.declareAll _

theorem validate_tangled : tangled.validate = .error (.cyclic "shop.Order") := by decide +kernel

theorem validate_decides_hierarchy_tangled :
    tangled.Reachable ∧ tangled.Resolved ∧ (∃ c, TransGen tangled.Extends c c) ∧
      ¬∃ c ∈ tangled.entries, ∃ t ∈ c.supertypes, ¬tangled.Declares t.fingerprint := by
  obtain ⟨hmissing, -, hcyclic, -⟩ := validate_decides_hierarchy reachable_tangled
  obtain ⟨hresolved, hcycle⟩ := hcyclic.mp ⟨_, validate_tangled⟩
  refine ⟨reachable_tangled, hresolved, hcycle, fun h => ?_⟩
  obtain ⟨name, user, hv⟩ := hmissing.mpr h
  rw [validate_tangled] at hv
  cases hv

/-- The class that a cycle is reported with is on a cycle itself. -/
theorem cyclic_class_is_on_cycle (hcat : cat.Reachable) {name : String} (h : cat.validate = .error (.cyclic name)) :
    ∃ c ∈ cat.entries, c.name.source = name ∧ TransGen cat.Extends c c := by
  rcases hcat.indexed.validate_cases with ⟨c, t, -, hv⟩ | ⟨-, c, hc, hv⟩ | ⟨-, -, hv⟩
  · rw [hv] at h
    cases h
  · rw [hv] at h
    cases h
    exact ⟨c, Extends.mem_left hc, rfl, hc⟩
  · rw [hv] at h
    cases h

/-- Not the class that is only below the cycle, though it is declared first. -/
theorem cyclic_class_is_on_cycle_tangled :
    tangled.Reachable ∧ tangled.validate = .error (.cyclic "shop.Order") ∧
      ∃ c ∈ tangled.entries, c.name.source = "shop.Order" ∧ TransGen tangled.Extends c c :=
  ⟨reachable_tangled, validate_tangled, cyclic_class_is_on_cycle reachable_tangled validate_tangled⟩

end Marshal.Catalog
