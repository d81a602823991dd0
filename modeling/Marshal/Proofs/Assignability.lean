import Marshal.Proofs.Ancestry

/-! # What can be assigned

The search for a supertype uses each declaration once, in whatever order the references come up. It finds the target
exactly if references lead to it: a path through a declaration that is used up can be cut at its last reference from
there, and that reference is still to be followed. -/

namespace Marshal.Catalog
open Relation
variable {cat : Catalog}

/-- A reference that is still to be used. -/
def RefersFrom (cat : Catalog) (fresh : List Fingerprint) (a b : Fingerprint) : Prop := a ∈ fresh ∧ cat.Refers a b

/-- A path can do without the references of one declaration, perhaps after the last of them. -/
theorem path_erase {fresh : List Fingerprint} {a b : Fingerprint} (id : Fingerprint)
    (h : ReflTransGen (cat.RefersFrom fresh) a b) :
    ReflTransGen (cat.RefersFrom (fresh.erase id)) a b ∨
      ∃ p ∈ cat.parents id, ReflTransGen (cat.RefersFrom (fresh.erase id)) p b := by
  induction h using ReflTransGen.head_induction_on with
  | refl => exact Or.inl .refl
  | @head a m ham _ ih =>
    rcases ih with hpath | hlast
    · by_cases hid : a = id
      · exact Or.inr ⟨m, hid ▸ ham.2, hpath⟩
      · exact Or.inl (.head ⟨(List.mem_erase_of_ne hid).mpr ham.1, ham.2⟩ hpath)
    · exact Or.inr hlast

/-- Nothing is missed: a path whose references are all still to be used is found. -/
theorem reaches_of_path {target : Fingerprint} {fresh pending : List Fingerprint}
    (h : ∃ id ∈ pending, ReflTransGen (cat.RefersFrom fresh) id target) : cat.reaches target fresh pending = true := by
  fun_induction reaches cat target fresh pending with
  | case1 =>
    obtain ⟨_, hmem, -⟩ := h
    cases hmem
  | case2 => rfl
  | case3 fresh id rest hne hfresh ih =>
    obtain ⟨a, ha, hpath⟩ := h
    refine ih ?_
    rcases path_erase id hpath with hpath | ⟨p, hp, hpath⟩
    · rcases List.mem_cons.mp ha with rfl | ha
      · rcases hpath.cases_head with rfl | ⟨m, ham, hpath⟩
        · exact absurd rfl hne
        · exact ⟨m, List.mem_append_left _ ham.2, hpath⟩
      · exact ⟨a, List.mem_append_right _ ha, hpath⟩
    · exact ⟨p, List.mem_append_left _ hp, hpath⟩
  | case4 fresh id rest hne hfresh ih =>
    obtain ⟨a, ha, hpath⟩ := h
    refine ih ?_
    rcases List.mem_cons.mp ha with rfl | ha
    · rcases hpath.cases_head with rfl | ⟨m, ham, -⟩
      · exact absurd rfl hne
      · exact absurd ham.1 hfresh
    · exact ⟨a, ha, hpath⟩

namespace Indexed
variable (h : cat.Indexed)
include h

theorem mem_ids_of_refers {a b : Fingerprint} (hab : cat.Refers a b) : a ∈ cat.ids := by
  obtain ⟨c, hfind, -⟩ := refers_iff.mp hab
  obtain ⟨hc, rfl⟩ := h.find?_eq_some.mp hfind
  exact List.mem_map.mpr ⟨c, Array.mem_toList_iff.mpr hc, rfl⟩

theorem reaches_iff {a target : Fingerprint} :
    cat.reaches target cat.ids [a] = true ↔ ReflTransGen cat.Refers a target := by
  constructor
  · intro hreach
    obtain ⟨id, hid, hpath⟩ := path_of_reaches hreach
    exact List.mem_singleton.mp hid ▸ hpath
  · intro hpath
    refine reaches_of_path ⟨a, List.mem_singleton_self a, ?_⟩
    exact ReflTransGen.mono (fun _ _ hxy => ⟨h.mem_ids_of_refers hxy, hxy⟩) _ _ hpath

/-- What can be assigned to another type is that type, or refers to a class that references to supertypes lead from. -/
theorem assignable_iff {source target : HostType} : cat.assignable source target = true ↔
    source = target ∨
      ∃ a b, source.classRef? = some a ∧ target.classRef? = some b ∧ ReflTransGen cat.Refers a.id b.id := by
  rw [assignable, Bool.or_eq_true, beq_iff_eq]
  refine or_congr_right ?_
  cases source.classRef? with
  | none => simp
  | some a =>
    cases target.classRef? with
    | none => simp
    | some b => simp [h.reaches_iff]

theorem assignable_object_iff {a b : ClassRef} :
    cat.assignable (.object a) (.object b) = true ↔ ReflTransGen cat.Refers a.id b.id := by
  rw [assignable_object, h.reaches_iff]

theorem refers_of_extends {c d : ClassDecl} (hcd : cat.Extends c d) : cat.Refers c.id d.id := by
  obtain ⟨hc, -, t, ht, hid⟩ := hcd
  exact refers_iff.mpr ⟨c, h.find?_eq_some.mpr ⟨hc, rfl⟩, t, ht, hid.symm⟩

theorem assignable_of_extends {c d : ClassDecl} (hcd : ReflTransGen cat.Extends c d) :
    cat.assignable c.type d.type = true :=
  h.assignable_object_iff.mpr (hcd.lift ClassDecl.id fun _ _ => h.refers_of_extends)

/-- Between declared classes, it is being below or the same. -/
theorem assignable_iff_extends {c d : ClassDecl} (hc : c ∈ cat.entries) (hd : d ∈ cat.entries) :
    cat.assignable c.type d.type = true ↔ ReflTransGen cat.Extends c d :=
  ⟨fun hcd => h.extends_of_reaches hc hd (cat.assignable_object _ _ ▸ hcd), h.assignable_of_extends⟩

end Indexed

end Marshal.Catalog
