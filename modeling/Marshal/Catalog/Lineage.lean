import Marshal.Catalog

/-! # Lineage and assignability

The lineage of a class is the class itself, its superclass, the superclass of that, and so on; it ends
where a superclass is missing, not declared, or already on it. A type can be assigned to another when
the two are equal, or when both are classes and references to supertypes lead from one to the other.

Both walks keep the fingerprints of the declarations that they have not used yet and use each
declaration at most once, so they end on every catalog, whether or not its hierarchy has cycles. -/

namespace Marshal.Catalog

def ids (cat : Catalog) : List Fingerprint := cat.entries.toList.map (·.id)

/-! ### Lineage -/

/-- The class and its ancestors, as long as they are in `fresh`. -/
def climb (cat : Catalog) (fresh : List Fingerprint) (c : ClassDecl) : List ClassDecl :=
  c :: match cat.superclass? c with
    | none => []
    | some p => if p.id ∈ fresh then climb cat (fresh.erase p.id) p else []
termination_by fresh.length
decreasing_by
  have h : p.id ∈ fresh := ‹_›
  have := List.length_pos_of_mem h
  rw [List.length_erase_of_mem h]
  omega

/-- The class need not be declared in the catalog itself. -/
def lineage (cat : Catalog) (c : ClassDecl) : List ClassDecl := cat.climb (cat.ids.erase c.id) c

/-! ### Assignability -/

/-- The fingerprints that the declaration refers to as supertypes; none if there is no declaration. -/
def parents (cat : Catalog) (id : Fingerprint) : List Fingerprint :=
  match cat.find? id with
  | none => []
  | some c => c.supertypes.map (·.fingerprint)

/-- How many references to supertypes there are in all, which bounds those of any one declaration. -/
def references (decls : List ClassDecl) : Nat := decls.foldr (fun c n => c.supertypes.length + n) 0

def breadth (cat : Catalog) : Nat := references cat.entries.toList

theorem mem_of_find? {cat : Catalog} {id : Fingerprint} {c : ClassDecl} (h : cat.find? id = some c) :
    c ∈ cat.entries.toList := by
  obtain ⟨i, -, hi⟩ := Option.bind_eq_some_iff.mp h
  exact Array.mem_toList_iff.mpr (Array.mem_of_getElem? hi)

theorem length_supertypes_le {decls : List ClassDecl} {c : ClassDecl} (h : c ∈ decls) :
    c.supertypes.length ≤ references decls := by
  induction decls with
  | nil => cases h
  | cons d rest ih =>
    rw [references, List.foldr_cons]
    rcases List.mem_cons.mp h with rfl | h
    · exact Nat.le_add_right _ _
    · exact Nat.le_trans (ih h) (Nat.le_add_left _ _)

theorem length_parents_le (cat : Catalog) (id : Fingerprint) : (cat.parents id).length ≤ cat.breadth := by
  unfold parents
  split
  · exact Nat.zero_le _
  · next c h =>
    rw [List.length_map]
    exact length_supertypes_le (mem_of_find? h)

/-- Whether the target is among the pending fingerprints or above one of them. -/
def reaches (cat : Catalog) (target : Fingerprint) (fresh pending : List Fingerprint) : Bool :=
  match pending with
  | [] => false
  | id :: rest =>
    if id = target then true
    else if id ∈ fresh then reaches cat target (fresh.erase id) (cat.parents id ++ rest)
    else reaches cat target fresh rest
termination_by fresh.length * (cat.breadth + 1) + pending.length
decreasing_by
  · have h : id ∈ fresh := ‹_›
    obtain ⟨n, hn⟩ := Nat.exists_eq_add_of_lt (List.length_pos_of_mem h)
    have := length_parents_le cat id
    rw [List.length_erase_of_mem h, List.length_append, List.length_cons, hn]
    simp only [Nat.zero_add, Nat.add_sub_cancel, Nat.add_mul, Nat.one_mul]
    omega
  · rw [List.length_cons]
    omega

def assignable (cat : Catalog) (source target : HostType) : Bool :=
  source == target ||
    match source.classRef?, target.classRef? with
    | some s, some t => cat.reaches t.id cat.ids [s.id]
    | _, _ => false

end Marshal.Catalog
