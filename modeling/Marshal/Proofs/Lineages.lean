import Marshal.Proofs.Ancestry
import Mathlib.Data.List.Chain

/-! # Lineages as chains

A lineage is a chain from each class to its superclass. It ends where there is no declared superclass, or where the
superclass is on the lineage already. Every class on it is above all that come before, so that in a resolved hierarchy
without cycles it can only end at a class that has no superclass. -/

namespace Marshal.Catalog
open Relation
variable {cat : Catalog} {fresh : List Fingerprint} {c p : ClassDecl}

/-- `p` is the declared superclass of `c`. -/
def Inherits (cat : Catalog) (c p : ClassDecl) : Prop := cat.superclass? c = some p

/-! ### Climbing -/

theorem climb_of_end (h : ∀ p, cat.Inherits c p → p.id ∉ fresh) : cat.climb fresh c = [c] := by
  rw [climb]
  cases hp : cat.superclass? c with
  | none => rfl
  | some p => exact congrArg (c :: ·) (if_neg (h p hp))

theorem climb_of_inherits (hp : cat.Inherits c p) (hfresh : p.id ∈ fresh) :
    cat.climb fresh c = c :: cat.climb (fresh.erase p.id) p := by
  rw [climb, show cat.superclass? c = some p from hp]
  exact congrArg (c :: ·) (if_pos hfresh)

/-- A lineage either ends with a class or goes on with its superclass. -/
theorem climb_induction (cat : Catalog) {motive : List Fingerprint → ClassDecl → Prop}
    (last : ∀ fresh c, (∀ p, cat.Inherits c p → p.id ∉ fresh) → motive fresh c)
    (step : ∀ fresh c p, cat.Inherits c p → p.id ∈ fresh → motive (fresh.erase p.id) p → motive fresh c)
    (fresh : List Fingerprint) (c : ClassDecl) : motive fresh c := by
  fun_induction climb cat fresh c with
  | case1 fresh c ih =>
    by_cases hstep : ∃ p, cat.Inherits c p ∧ p.id ∈ fresh
    · obtain ⟨p, hp, hfresh⟩ := hstep
      exact step fresh c p hp hfresh (ih p hfresh)
    · exact last fresh c fun p hp hfresh => hstep ⟨p, hp, hfresh⟩

theorem climb_isChain (cat : Catalog) (fresh : List Fingerprint) (c : ClassDecl) :
    (cat.climb fresh c).IsChain cat.Inherits := by
  induction fresh, c using climb_induction cat with
  | last fresh c hlast =>
    rw [climb_of_end hlast]
    exact .singleton c
  | step fresh c p hp hfresh ih =>
    obtain ⟨above, habove⟩ := cat.climb_cons (fresh.erase p.id) p
    rw [climb_of_inherits hp hfresh]
    rw [habove] at ih ⊢
    exact .cons_cons hp ih

/-- A fresh superclass of the last class would have been climbed to, unless it was met on the way. -/
theorem climb_end (cat : Catalog) (fresh : List Fingerprint) (c : ClassDecl) :
    ∃ below last, cat.climb fresh c = below ++ [last] ∧
      ∀ p, cat.Inherits last p → p.id ∈ fresh → p.id ∈ (cat.climb fresh c).map (·.id) := by
  induction fresh, c using climb_induction cat with
  | last fresh c hlast => exact ⟨[], c, climb_of_end hlast, fun q hq hqfresh => absurd hqfresh (hlast q hq)⟩
  | step fresh c p hp hfresh ih =>
    obtain ⟨below, last, hlast, hend⟩ := ih
    rw [climb_of_inherits hp hfresh]
    refine ⟨c :: below, last, congrArg (c :: ·) hlast, fun q hq hqfresh => ?_⟩
    rw [List.map_cons]
    by_cases hqp : q.id = p.id
    · obtain ⟨above, habove⟩ := cat.climb_cons (fresh.erase p.id) p
      simp [habove, hqp]
    · exact List.mem_cons_of_mem _ (hend q hq ((List.mem_erase_of_ne hqp).mpr hqfresh))

/-! ### The lineage -/

theorem lineage_isChain (cat : Catalog) (c : ClassDecl) : (cat.lineage c).IsChain cat.Inherits := cat.climb_isChain _ c

theorem lineage_pairwise (cat : Catalog) (c : ClassDecl) : (cat.lineage c).Pairwise (TransGen cat.Inherits) :=
  ((cat.lineage_isChain c).imp fun _ _ => .single).pairwise

namespace Indexed
variable (h : cat.Indexed)
include h

theorem lineage_end (c : ClassDecl) : ∃ below last, cat.lineage c = below ++ [last] ∧
    ∀ p, cat.Inherits last p → p.id ∈ (cat.lineage c).map (·.id) := by
  obtain ⟨below, last, hlast, hend⟩ := cat.climb_end (cat.ids.erase c.id) c
  refine ⟨below, last, hlast, fun p hp => ?_⟩
  by_cases hid : p.id = c.id
  · obtain ⟨above, habove⟩ := cat.mem_lineage_self c
    simp [habove, hid]
  · obtain ⟨t, -, hfind⟩ := Option.bind_eq_some_iff.mp hp
    have hmem : p ∈ cat.entries.toList := Array.mem_toList_iff.mpr (h.find?_eq_some.mp hfind).1
    exact hend p hp ((List.mem_erase_of_ne hid).mpr (List.mem_map.mpr ⟨p, hmem, rfl⟩))

theorem extends_of_inherits {d : ClassDecl} (hc : c ∈ cat.entries) (hcd : TransGen cat.Inherits c d) :
    TransGen cat.Extends c d := by
  induction hcd with
  | single hcd => exact .single (h.extends_of_superclass hc hcd)
  | tail _ hde ih =>
    obtain ⟨_, -, hlast⟩ := TransGen.tail'_iff.mp ih
    exact ih.tail (h.extends_of_superclass hlast.2.1 hde)

theorem superclass_of_mem {t : HostType} (hresolved : cat.Resolved) (hc : c ∈ cat.entries)
    (ht : c.superclass = some t) : ∃ p, cat.Inherits c p := by
  have hmem : t ∈ c.supertypes := List.mem_append_left _ (Option.mem_toList.mpr ht)
  obtain ⟨p, hp, hid⟩ := hresolved c hc t hmem
  refine ⟨p, ?_⟩
  rw [Inherits, superclass?, ht]
  exact h.find?_eq_some.mpr ⟨hp, hid⟩

/-- Where every reference leads to a declaration and none is above itself, a lineage ends at a root. -/
theorem lineage_ends_at_root (hresolved : cat.Resolved) (hno : ∀ c, ¬TransGen cat.Extends c c) (hc : c ∈ cat.entries) :
    ∃ below root, cat.lineage c = below ++ [root] ∧ root.superclass = none := by
  obtain ⟨below, last, hlast, hend⟩ := h.lineage_end c
  refine ⟨below, last, hlast, ?_⟩
  cases hs : last.superclass with
  | none => rfl
  | some t =>
    have hmem : last ∈ cat.lineage c := by simp [hlast]
    obtain ⟨p, hp⟩ := h.superclass_of_mem hresolved (h.mem_entries_of_mem_lineage hc hmem) hs
    have hlp := h.extends_of_superclass (h.mem_entries_of_mem_lineage hc hmem) hp
    -- The superclass is on the lineage, and so it is the last class itself or below it.
    obtain ⟨q, hq, hid⟩ := List.mem_map.mp (hend p hp)
    obtain rfl := h.eq_of_id (h.mem_entries_of_mem_lineage hc hq) hlp.2.1 hid
    rw [hlast, List.mem_append, List.mem_singleton] at hq
    rcases hq with hq | rfl
    · have hpairwise := cat.lineage_pairwise c
      rw [hlast, List.pairwise_append] at hpairwise
      have hpl := h.extends_of_inherits hlp.2.1 (hpairwise.2.2 q hq last (List.mem_singleton_self _))
      exact absurd (hpl.tail hlp) (hno q)
    · exact absurd (.single hlp) (hno q)

end Indexed

end Marshal.Catalog
