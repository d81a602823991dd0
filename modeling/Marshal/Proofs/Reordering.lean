import Marshal.Proofs.Likeness
import Marshal.Proofs.Peers

/-! # Catalogs in another order

The order in which classes are declared shows in the positions of the index, in the order of the peer index, and in
which class of a cycle is found first. No lookup and no walk along references shows it, and a converter sees a
catalog only through these, so that nothing that is written depends on the order either. -/

namespace Marshal
open Relation

/-! ### Walks -/

namespace Catalog

/-- The same declarations, made in another order. -/
structure Reordered (cat cat' : Catalog) : Prop where
  left : cat.Reachable
  right : cat'.Reachable
  perm : cat.entries.toList.Perm cat'.entries.toList

namespace Reordered
variable {cat cat' : Catalog} (h : cat.Reordered cat')
include h

theorem mem_entries {c : ClassDecl} : c ∈ cat.entries ↔ c ∈ cat'.entries := by
  rw [← Array.mem_toList_iff, ← Array.mem_toList_iff]
  exact h.perm.mem_iff

theorem find?_eq : cat.find? = cat'.find? := by
  funext id
  refine Option.ext fun c => ?_
  rw [h.left.indexed.find?_eq_some, h.right.indexed.find?_eq_some, h.mem_entries]

theorem named?_eq (name : String) : cat.named? name = cat'.named? name := congrFun h.find?_eq _

theorem declOf?_eq (t : HostType) : cat.declOf? t = cat'.declOf? t := by
  unfold declOf?
  rw [h.find?_eq]

theorem superclass?_eq (c : ClassDecl) : cat.superclass? c = cat'.superclass? c := by
  unfold superclass?
  rw [h.find?_eq]

theorem parents_eq (id : Fingerprint) : cat.parents id = cat'.parents id := by
  unfold parents
  rw [h.find?_eq]

theorem ids_perm : cat.ids.Perm cat'.ids := h.perm.map _

/-- Of the declarations that are left it only matters which they are. -/
theorem climb_eq {fresh fresh' : List Fingerprint} (hf : fresh.Perm fresh') (c : ClassDecl) :
    cat.climb fresh c = cat'.climb fresh' c := by
  fun_induction climb cat fresh c generalizing fresh' with
  | case1 fresh c ih =>
    rw [climb, ← h.superclass?_eq]
    cases hp : cat.superclass? c with
    | none => rfl
    | some p =>
      by_cases hmem : p.id ∈ fresh
      · simp only [if_pos hmem, if_pos (hf.mem_iff.mp hmem), ih p hmem (hf.erase _)]
      · simp only [if_neg hmem, if_neg (mt hf.mem_iff.mpr hmem)]

theorem lineage_eq (c : ClassDecl) : cat.lineage c = cat'.lineage c := h.climb_eq (h.ids_perm.erase _) c

theorem reaches_eq {fresh fresh' : List Fingerprint} (hf : fresh.Perm fresh') (target : Fingerprint)
    (pending : List Fingerprint) : cat.reaches target fresh pending = cat'.reaches target fresh' pending := by
  fun_induction reaches cat target fresh pending generalizing fresh' with
  | case1 => rw [reaches]
  | case2 => rw [reaches, if_pos rfl]
  | case3 fresh id rest hne hmem ih =>
    rw [reaches, if_neg hne, if_pos (hf.mem_iff.mp hmem), ← h.parents_eq]
    exact ih (hf.erase _)
  | case4 fresh id rest hne hmem ih =>
    rw [reaches, if_neg hne, if_neg (mt hf.mem_iff.mpr hmem)]
    exact ih hf

theorem assignable_eq (a b : HostType) : cat.assignable a b = cat'.assignable a b := by
  simp only [assignable, h.reaches_eq h.ids_perm]

/-! ### Hierarchies -/

theorem declares_iff {id : Fingerprint} : cat.Declares id ↔ cat'.Declares id := by
  simp only [Declares, h.mem_entries]

theorem resolved_iff : cat.Resolved ↔ cat'.Resolved := by
  simp only [Resolved, h.mem_entries, h.declares_iff]

theorem extends_eq : cat.Extends = cat'.Extends := by
  funext c d
  simp only [Extends, h.mem_entries]

/-- Which reference or which class is reported may differ. -/
theorem validate_kind :
    (cat.validate = .ok () ∧ cat'.validate = .ok ()) ∨
      (∃ name user name' user', cat.validate = .error (.unknownSupertype name user) ∧
        cat'.validate = .error (.unknownSupertype name' user')) ∨
      ∃ name name', cat.validate = .error (.cyclic name) ∧ cat'.validate = .error (.cyclic name') := by
  have hcases := h.right.indexed.validate_cases
  rw [← h.resolved_iff, ← h.extends_eq] at hcases
  rcases h.left.indexed.validate_cases with ⟨c, t, hfirst, hv⟩ | ⟨hresolved, c, hc, hv⟩ | ⟨hresolved, hno, hv⟩
  · have hnot := hfirst.not_resolved
    rcases hcases with ⟨c', t', -, hv'⟩ | ⟨hresolved, -⟩ | ⟨hresolved, -⟩
    · exact Or.inr (Or.inl ⟨_, _, _, _, hv, hv'⟩)
    · exact absurd hresolved hnot
    · exact absurd hresolved hnot
  · rcases hcases with ⟨c', t', hfirst, -⟩ | ⟨-, c', -, hv'⟩ | ⟨-, hno, -⟩
    · exact absurd (h.resolved_iff.mp hresolved) hfirst.not_resolved
    · exact Or.inr (Or.inr ⟨_, _, hv, hv'⟩)
    · exact absurd hc (hno c)
  · rcases hcases with ⟨c', t', hfirst, -⟩ | ⟨-, c', hc, -⟩ | ⟨-, -, hv'⟩
    · exact absurd (h.resolved_iff.mp hresolved) hfirst.not_resolved
    · exact absurd hc (hno c')
    · exact Or.inl ⟨hv, hv'⟩

end Reordered

end Catalog

/-! ### Peers and exports -/

namespace Catalog.Reordered
open Converter
variable {cat cat' : Catalog} (h : cat.Reordered cat') (s : Settings)
include h

theorem peerMembers_eq (c : ClassDecl) : PeerMembers.ofClass cat s c = PeerMembers.ofClass cat' s c := by
  have hfield (name : String) (required : HostType) :
      PeerMembers.ownField cat name required = PeerMembers.ownField cat' name required := by
    funext d
    simp only [PeerMembers.ownField, h.assignable_eq]
  simp only [PeerMembers.ofClass, h.lineage_eq, hfield]

theorem peerIndex_find?_eq (id : Fingerprint) :
    (PeerIndex.ofCatalog cat s).find? id = (PeerIndex.ofCatalog cat' s).find? id := by
  refine Option.ext fun p => ?_
  rw [PeerIndex.find?_ofCatalog h.left.indexed, PeerIndex.find?_ofCatalog h.right.indexed]
  simp only [h.mem_entries, h.peerMembers_eq]

theorem peerIndex_of?_eq (t : HostType) :
    (PeerIndex.ofCatalog cat s).of? t = (PeerIndex.ofCatalog cat' s).of? t := by
  simp only [PeerIndex.of?, h.peerIndex_find?_eq]

theorem exports_eq (c : ClassDecl) : Export.all cat s c = Export.all cat' s c := by
  rw [Export.all, Export.all, h.lineage_eq]

/-! ### Conversions -/

theorem emitPeer_eq (c : Conversion) (d : Direction) :
    Strategy.emitPeer (builtIn cat s) cat (.ofCatalog cat s) c d =
      Strategy.emitPeer (builtIn cat' s) cat' (.ofCatalog cat' s) c d := by
  cases d <;> simp only [Strategy.emitPeer, h.peerIndex_of?_eq, h.assignable_eq] <;> rfl

theorem alike : (builtIn cat s).Alike (builtIn cat' s) cat cat' := by
  refine alike_of_third h.lineage_eq h.assignable_eq h.declOf?_eq (fun t => ?_) rfl fun c d => ?_
  · exact congrArg Option.isSome (h.peerIndex_of?_eq s t)
  · exact h.emitPeer_eq s c d

theorem emission_eq (c : Conversion) (d : Direction) :
    (builtIn cat s).emission cat c d = (builtIn cat' s).emission cat' c d := (h.alike s).emission_eq c d

theorem callEmission_eq (call : Call) : call.emission (builtIn cat s) cat = call.emission (builtIn cat' s) cat' :=
  (h.alike s).callEmission_eq call

/-! ### All answers -/

/-- Two catalogs of the same declarations cannot be told apart by looking up a class, by walking from one, by the
    members of peers, by the exports of a class, nor by anything that the built-in strategies write or fail with. Both
    are well formed, or both miss a supertype, or both have a cycle. -/
theorem answers_eq :
    ((∀ id, cat.find? id = cat'.find? id) ∧ (∀ name, cat.named? name = cat'.named? name) ∧
      ∀ t, cat.declOf? t = cat'.declOf? t) ∧
    ((∀ c, cat.lineage c = cat'.lineage c) ∧ ∀ a b, cat.assignable a b = cat'.assignable a b) ∧
    ((∀ c, PeerMembers.ofClass cat s c = PeerMembers.ofClass cat' s c) ∧
      (∀ id, (PeerIndex.ofCatalog cat s).find? id = (PeerIndex.ofCatalog cat' s).find? id) ∧
      ∀ c, Export.all cat s c = Export.all cat' s c) ∧
    ((∀ d t name, (builtIn cat s).convertToText cat d t name = (builtIn cat' s).convertToText cat' d t name) ∧
      ∀ call w, Call.write (builtIn cat s) cat w call = Call.write (builtIn cat' s) cat' w call) ∧
    ((cat.validate = .ok () ∧ cat'.validate = .ok ()) ∨
      (∃ name user name' user', cat.validate = .error (.unknownSupertype name user) ∧
        cat'.validate = .error (.unknownSupertype name' user')) ∨
      ∃ name name', cat.validate = .error (.cyclic name) ∧ cat'.validate = .error (.cyclic name')) := by
  refine ⟨⟨congrFun h.find?_eq, h.named?_eq, h.declOf?_eq⟩, ⟨h.lineage_eq, h.assignable_eq⟩,
    ⟨h.peerMembers_eq s, h.peerIndex_find?_eq s, h.exports_eq s⟩, ⟨fun d t name => ?_, fun call w => ?_⟩,
    h.validate_kind⟩
  · have htext (cat : Catalog) : (builtIn cat s).convertToText cat d t name =
        ((builtIn cat s).emission cat ⟨t, name, []⟩ d).toText s.indentUnit := rfl
    rw [htext, htext, h.emission_eq]
  · rw [Call.write_eq, Call.write_eq, h.callEmission_eq]

end Catalog.Reordered

/-- The classes of the tangle from the last to the first. -/
def Catalog.retangled : Catalog := (Catalog.runtime.declareAll (Catalog.tangled.entries.toList.drop 5).reverse).1

-- Stated together, so that the catalog is evaluated once.
theorem Catalog.retangled_evaluated :
    tangled.entries.toList.Perm retangled.entries.toList ∧ retangled.validate = .error (.cyclic "shop.Cart") := by
  decide +kernel

/-- Another class of the cycle is reported, and nothing else changes. -/
theorem Catalog.Reordered.answers_eq_tangled :
    tangled.Reordered retangled ∧ tangled.validate = .error (.cyclic "shop.Order") ∧
      retangled.validate = .error (.cyclic "shop.Cart") ∧
      (∀ c, tangled.lineage c = retangled.lineage c) ∧
      ∀ call w, Converter.Call.write (.builtIn tangled {}) tangled w call =
        Converter.Call.write (.builtIn retangled {}) retangled w call := by
  obtain ⟨hperm, hvalidate⟩ := retangled_evaluated
  have h : tangled.Reordered retangled := ⟨reachable_tangled, Reachable.runtime.declareAll _, hperm⟩
  obtain ⟨-, ⟨hlineage, -⟩, -, ⟨-, hwrite⟩, -⟩ := h.answers_eq {}
  exact ⟨h, validate_tangled, hvalidate, hlineage, hwrite⟩

end Marshal
