import Marshal.Catalog.Hierarchy
import Marshal.Proofs.Cycles
import Marshal.Proofs.Registration
import Marshal.Proofs.Traversal

/-! # Well-formed hierarchies

A catalog is resolved when every reference to a supertype leads to a declaration. Then the graph of
positions is the graph in which every class points to its supertypes, so that validation finds a cycle of
classes, and the class that it names is on one. -/

namespace Marshal.Catalog
open Relation
variable {cat : Catalog}

def Resolved (cat : Catalog) : Prop := ∀ c ∈ cat.entries, ∀ t ∈ c.supertypes, cat.Declares t.fingerprint

/-- `d` is declared as a supertype of `c`. -/
def Extends (cat : Catalog) (c d : ClassDecl) : Prop :=
  c ∈ cat.entries ∧ d ∈ cat.entries ∧ ∃ t ∈ c.supertypes, d.id = t.fingerprint

/-- The reference of `c` to `t` leads nowhere, and all references before it lead to declarations: those of
    the classes declared before `c`, and those before `t` in `c`. -/
structure FirstMissing (cat : Catalog) (c : ClassDecl) (t : HostType) : Prop where
  classes : ∃ before after, cat.entries.toList = before ++ c :: after ∧
    ∀ b ∈ before, ∀ u ∈ b.supertypes, cat.Declares u.fingerprint
  supertypes : ∃ before after, c.supertypes = before ++ t :: after ∧ ∀ u ∈ before, cat.Declares u.fingerprint
  missing : ¬cat.Declares t.fingerprint

theorem FirstMissing.not_resolved {c : ClassDecl} {t : HostType} (h : cat.FirstMissing c t) : ¬cat.Resolved := by
  obtain ⟨⟨before, after, hc, -⟩, ⟨earlier, later, ht, -⟩, hmissing⟩ := h
  intro hr
  have hmem : c ∈ cat.entries := Array.mem_toList_iff.mp (hc ▸ List.mem_append_right _ (List.mem_cons_self ..))
  exact hmissing (hr c hmem t (ht ▸ List.mem_append_right _ (List.mem_cons_self ..)))

/-! ### Edges by position -/

def position (cat : Catalog) (c : ClassDecl) (t : HostType) : Except CatalogError Nat :=
  match cat.index[t.fingerprint]? with
  | some i => .ok i
  | none => .error (.unknownSupertype t.source c.name.source)

def outgoing (cat : Catalog) (p : ClassDecl × Nat) : Except CatalogError (List (Nat × Nat)) :=
  (cat.supertypePositions p.1).map fun targets => targets.map ((p.2, ·))

theorem hierarchy_eq (cat : Catalog) :
    cat.hierarchy = (cat.entries.toList.zipIdx.mapM cat.outgoing).map fun edges => ⟨cat.size, edges.flatten⟩ := rfl

theorem edges_of_hierarchy {g : Digraph} (hg : cat.hierarchy = .ok g) :
    ∃ edges, cat.entries.toList.zipIdx.mapM cat.outgoing = .ok edges ∧ ⟨cat.size, edges.flatten⟩ = g := by
  rw [hierarchy_eq] at hg
  exact Traversal.map_eq_ok.mp hg

theorem position_eq_ok {c : ClassDecl} {t : HostType} {i : Nat} :
    cat.position c t = .ok i ↔ cat.index[t.fingerprint]? = some i := by
  unfold position
  cases cat.index[t.fingerprint]? <;> simp

theorem Indexed.declares_iff (h : cat.Indexed) {id : Fingerprint} : cat.Declares id ↔ ∃ i, cat.index[id]? = some i := by
  rw [← h.contains_iff, contains, Std.TreeMap.contains_eq_isSome_getElem?, Option.isSome_iff_exists]

theorem Indexed.position_eq_error (h : cat.Indexed) {c : ClassDecl} {t : HostType} {e : CatalogError}
    (he : cat.position c t = .error e) :
    ¬cat.Declares t.fingerprint ∧ e = .unknownSupertype t.source c.name.source := by
  rw [h.declares_iff]
  unfold position at he
  cases hi : cat.index[t.fingerprint]? with
  | some i =>
    rw [hi] at he
    cases he
  | none =>
    rw [hi] at he
    cases he
    exact ⟨fun ⟨_, hj⟩ => (nomatch hj), rfl⟩

theorem Indexed.declares_of_position (h : cat.Indexed) {c : ClassDecl} {t : HostType}
    (hp : ∃ i, cat.position c t = .ok i) : cat.Declares t.fingerprint := by
  obtain ⟨i, hi⟩ := hp
  exact h.declares_iff.mpr ⟨i, position_eq_ok.mp hi⟩

theorem outgoing_eq_ok {c : ClassDecl} {i : Nat} {es : List (Nat × Nat)} (h : cat.outgoing (c, i) = .ok es) :
    ∃ targets, c.supertypes.mapM (cat.position c) = .ok targets ∧ targets.map ((i, ·)) = es :=
  Traversal.map_eq_ok.mp h

theorem outgoing_eq_error {c : ClassDecl} {i : Nat} {e : CatalogError} (h : cat.outgoing (c, i) = .error e) :
    c.supertypes.mapM (cat.position c) = .error e :=
  Traversal.map_eq_error.mp h

theorem Indexed.resolves_of_outgoing (h : cat.Indexed) {c : ClassDecl} {i : Nat}
    (ho : ∃ es, cat.outgoing (c, i) = .ok es) : ∀ t ∈ c.supertypes, cat.Declares t.fingerprint := by
  obtain ⟨es, hes⟩ := ho
  obtain ⟨targets, ht, -⟩ := outgoing_eq_ok hes
  exact fun t hm => h.declares_of_position (Traversal.ok_of_mapM_ok ht t hm)

/-! ### The graph of positions -/

theorem Indexed.firstMissing_of_hierarchy (h : cat.Indexed) {e : CatalogError} (he : cat.hierarchy = .error e) :
    ∃ c t, cat.FirstMissing c t ∧ e = .unknownSupertype t.source c.name.source := by
  rw [hierarchy_eq, Traversal.map_eq_error] at he
  obtain ⟨before, ⟨c, i⟩, after, hsplit, hbefore, hc⟩ := Traversal.first_of_mapM_error he
  obtain ⟨earlier, t, later, hts, hearlier, ht⟩ := Traversal.first_of_mapM_error (outgoing_eq_error hc)
  obtain ⟨hmissing, rfl⟩ := h.position_eq_error ht
  refine ⟨c, t, ⟨⟨before.map (·.1), after.map (·.1), ?_, fun b hb u hu => ?_⟩, ⟨earlier, later, hts, fun u hu => ?_⟩,
    hmissing⟩, rfl⟩
  · rw [← List.zipIdx_map_fst 0 cat.entries.toList, hsplit, List.map_append, List.map_cons]
  · obtain ⟨⟨b', j⟩, hb', rfl⟩ := List.mem_map.mp hb
    exact h.resolves_of_outgoing (hbefore _ hb') u hu
  · exact h.declares_of_position (hearlier u hu)

theorem Indexed.resolved_of_hierarchy (h : cat.Indexed) {g : Digraph} (hg : cat.hierarchy = .ok g) : cat.Resolved := by
  obtain ⟨edges, hm, -⟩ := edges_of_hierarchy hg
  intro c hc
  obtain ⟨i, hi⟩ := Array.getElem?_of_mem hc
  have hmem : (c, i) ∈ cat.entries.toList.zipIdx := List.mem_zipIdx_iff_getElem?.mpr (by simpa using hi)
  exact h.resolves_of_outgoing (Traversal.ok_of_mapM_ok hm _ hmem)

theorem edge_of_hierarchy {g : Digraph} (hg : cat.hierarchy = .ok g) {i j : Nat} :
    g.Edge i j ↔ ∃ c, cat.entries[i]? = some c ∧ ∃ t ∈ c.supertypes, cat.index[t.fingerprint]? = some j := by
  obtain ⟨edges, hm, rfl⟩ := edges_of_hierarchy hg
  show (i, j) ∈ edges.flatten ↔ _
  rw [List.mem_flatten]
  constructor
  · intro hes
    obtain ⟨es, hes, hij⟩ := hes
    obtain ⟨⟨c, i'⟩, hc, hes⟩ := (Traversal.mem_of_mapM_ok hm).mp hes
    obtain ⟨targets, ht, rfl⟩ := outgoing_eq_ok hes
    obtain ⟨j', hj, heq⟩ := List.mem_map.mp hij
    cases heq
    obtain ⟨t, htc, hpos⟩ := (Traversal.mem_of_mapM_ok ht).mp hj
    exact ⟨c, by simpa using List.mem_zipIdx_iff_getElem?.mp hc, t, htc, position_eq_ok.mp hpos⟩
  · intro hc
    obtain ⟨c, hc, t, htc, hj⟩ := hc
    have hmem : (c, i) ∈ cat.entries.toList.zipIdx := List.mem_zipIdx_iff_getElem?.mpr (by simpa using hc)
    obtain ⟨es, hes⟩ := Traversal.ok_of_mapM_ok hm _ hmem
    obtain ⟨targets, ht, rfl⟩ := outgoing_eq_ok hes
    exact ⟨_, (Traversal.mem_of_mapM_ok hm).mpr ⟨_, hmem, hes⟩,
      List.mem_map.mpr ⟨j, (Traversal.mem_of_mapM_ok ht).mpr ⟨t, htc, position_eq_ok.mpr hj⟩, rfl⟩⟩

end Marshal.Catalog
