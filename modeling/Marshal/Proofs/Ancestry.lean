import Marshal.Proofs.BuiltIns
import Marshal.Proofs.Validation

/-! # Ancestors

What the walks along references to supertypes find lies above the class that they begin at: what it can be
assigned to, and the classes of its lineage. So a class that can be assigned to one below it is on a cycle. -/

namespace Marshal.Catalog
open Relation
variable {cat : Catalog}

/-- The declaration of `a` refers to `b` as a supertype. -/
def Refers (cat : Catalog) (a b : Fingerprint) : Prop := b ∈ cat.parents a

theorem refers_iff {a b : Fingerprint} :
    cat.Refers a b ↔ ∃ c, cat.find? a = some c ∧ ∃ t ∈ c.supertypes, t.fingerprint = b := by
  unfold Refers parents
  cases cat.find? a with
  | none => simp
  | some c => simp

/-! ### Walks along all references -/

/-- Fingerprints that the walk passes over as used already do not matter for what it finds. -/
theorem path_of_reaches {target : Fingerprint} {fresh pending : List Fingerprint}
    (h : cat.reaches target fresh pending = true) : ∃ id ∈ pending, ReflTransGen cat.Refers id target := by
  fun_induction reaches cat target fresh pending with
  | case1 => cases h
  | case2 => exact ⟨_, List.mem_cons_self .., .refl⟩
  | case3 fresh id rest _ _ ih =>
    obtain ⟨next, hnext, hpath⟩ := ih h
    rcases List.mem_append.mp hnext with hparent | hrest
    · exact ⟨id, List.mem_cons_self .., .head hparent hpath⟩
    · exact ⟨next, List.mem_cons_of_mem _ hrest, hpath⟩
  | case4 fresh id rest _ _ ih =>
    obtain ⟨next, hnext, hpath⟩ := ih h
    exact ⟨next, List.mem_cons_of_mem _ hnext, hpath⟩

/-- Whatever leads to a declaration is declared itself. -/
theorem Indexed.descendant_of_path (h : cat.Indexed) {a : Fingerprint} {d : ClassDecl} (hd : d ∈ cat.entries)
    (hpath : ReflTransGen cat.Refers a d.id) : ∃ c ∈ cat.entries, c.id = a ∧ ReflTransGen cat.Extends c d := by
  induction hpath using ReflTransGen.head_induction_on with
  | refl => exact ⟨d, hd, rfl, .refl⟩
  | head hab _ ih =>
    obtain ⟨p, hp, rfl, hpd⟩ := ih
    obtain ⟨c, hfind, t, ht, hid⟩ := refers_iff.mp hab
    obtain ⟨hc, hca⟩ := h.find?_eq_some.mp hfind
    exact ⟨c, hc, hca, .head ⟨hc, hp, t, ht, hid.symm⟩ hpd⟩

theorem Indexed.eq_of_id (h : cat.Indexed) {c d : ClassDecl} (hc : c ∈ cat.entries) (hd : d ∈ cat.entries)
    (hid : c.id = d.id) : c = d :=
  Option.some.inj ((h.find?_eq_some.mpr ⟨hc, hid⟩).symm.trans (h.find?_eq_some.mpr ⟨hd, rfl⟩))

theorem Indexed.extends_of_reaches (h : cat.Indexed) {c d : ClassDecl} (hc : c ∈ cat.entries) (hd : d ∈ cat.entries)
    {fresh : List Fingerprint} (hreach : cat.reaches d.id fresh [c.id] = true) : ReflTransGen cat.Extends c d := by
  obtain ⟨id, hmem, hpath⟩ := path_of_reaches hreach
  obtain rfl := List.mem_singleton.mp hmem
  obtain ⟨c', hc', hid, hcd⟩ := h.descendant_of_path hd hpath
  rwa [h.eq_of_id hc' hc hid] at hcd

/-! ### The lineage -/

theorem Indexed.extends_of_superclass (h : cat.Indexed) {c p : ClassDecl} (hc : c ∈ cat.entries)
    (hp : cat.superclass? c = some p) : cat.Extends c p := by
  obtain ⟨t, ht, hfind⟩ := Option.bind_eq_some_iff.mp hp
  obtain ⟨hmem, hid⟩ := h.find?_eq_some.mp hfind
  exact ⟨hc, hmem, t, List.mem_append_left _ (Option.mem_toList.mpr ht), hid⟩

theorem Indexed.extends_of_mem_climb (h : cat.Indexed) {fresh : List Fingerprint} {c d : ClassDecl}
    (hc : c ∈ cat.entries) (hd : d ∈ cat.climb fresh c) : ReflTransGen cat.Extends c d := by
  fun_induction climb cat fresh c with
  | case1 fresh c ih =>
    rcases List.mem_cons.mp hd with rfl | hd
    · exact .refl
    cases hp : cat.superclass? c with
    | none =>
      rw [hp] at hd
      cases hd
    | some p =>
      simp only [hp] at hd
      have hcp := h.extends_of_superclass hc hp
      split at hd
      · next hfresh => exact .head hcp (ih p hfresh hcp.2.1 hd)
      · cases hd

theorem Indexed.extends_of_mem_lineage (h : cat.Indexed) {c d : ClassDecl} (hc : c ∈ cat.entries)
    (hd : d ∈ cat.lineage c) : ReflTransGen cat.Extends c d :=
  h.extends_of_mem_climb hc hd

theorem Indexed.mem_entries_of_mem_lineage (h : cat.Indexed) {c d : ClassDecl} (hc : c ∈ cat.entries)
    (hd : d ∈ cat.lineage c) : d ∈ cat.entries := by
  rcases (h.extends_of_mem_lineage hc hd).cases_tail with rfl | ⟨_, -, hlast⟩
  · exact hc
  · exact hlast.2.1

theorem climb_cons (cat : Catalog) (fresh : List Fingerprint) (c : ClassDecl) :
    ∃ above, cat.climb fresh c = c :: above := by
  rw [climb]
  exact ⟨_, rfl⟩

theorem mem_lineage_self (cat : Catalog) (c : ClassDecl) : ∃ above, cat.lineage c = c :: above := cat.climb_cons _ c

/-- A class that is above another and can be assigned to it is the same one. -/
theorem Indexed.eq_of_mem_lineage (h : cat.Indexed) (hno : ∀ c, ¬TransGen cat.Extends c c) {c d : ClassDecl}
    (hc : c ∈ cat.entries) (hd : d ∈ cat.lineage c) (hback : cat.assignable d.type c.type = true) : d = c := by
  have hup := h.extends_of_mem_lineage hc hd
  rcases reflTransGen_iff_eq_or_transGen.mp hup with rfl | hup'
  · rfl
  have hdown := h.extends_of_reaches (h.mem_entries_of_mem_lineage hc hd) hc (cat.assignable_object _ _ ▸ hback)
  exact absurd (hup'.trans_left hdown) (hno c)

theorem Indexed.wellFormed_of_validate (h : cat.Indexed) (hvalid : cat.validate = .ok ()) :
    cat.Resolved ∧ ∀ c, ¬TransGen cat.Extends c c := by
  rcases h.validate_cases with ⟨c, t, -, hv⟩ | ⟨-, c, -, hv⟩ | ⟨hresolved, hno, -⟩
  · rw [hvalid] at hv
    cases hv
  · rw [hvalid] at hv
    cases hv
  · exact ⟨hresolved, hno⟩

theorem Indexed.acyclic_of_validate (h : cat.Indexed) (hvalid : cat.validate = .ok ()) :
    ∀ c, ¬TransGen cat.Extends c c := (h.wellFormed_of_validate hvalid).2

end Marshal.Catalog
