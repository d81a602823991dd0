import Marshal.Proofs.Lineages
import Marshal.Proofs.Searches
import Mathlib.Data.List.Perm.Subperm

/-! # Ways up

From a class one can go up by declared superclasses, as long as no fingerprint comes up a second time. All such ways
begin alike, since a class has one superclass at most, and the lineage is the longest of them. A climber that always
looks one class ahead and remembers where it has been goes exactly this way, whether or not the class that it starts
from is declared and wherever the cycles of the hierarchy are. -/

namespace Marshal.Catalog
open Relation
variable {cat : Catalog} {fresh visited : List Fingerprint} {c p : ClassDecl} {way : List ClassDecl}

/-- A way up from a class: each class after the first is declared under the fingerprint of the superclass of the one
    before it, and no two have the same fingerprint. -/
structure Ascent (cat : Catalog) (c : ClassDecl) (way : List ClassDecl) : Prop where
  start : way.head? = some c
  upward : way.IsChain fun a b => ∃ t, a.superclass = some t ∧ b ∈ cat.entries ∧ b.id = t.fingerprint
  simple : (way.map (·.id)).Nodup

theorem Indexed.inherits_iff (h : cat.Indexed) :
    cat.Inherits c p ↔ ∃ t, c.superclass = some t ∧ p ∈ cat.entries ∧ p.id = t.fingerprint := by
  simp only [Inherits, superclass?, Option.bind_eq_some_iff, h.find?_eq_some]

theorem Indexed.id_mem_ids (h : cat.Indexed) (hp : cat.Inherits c p) : p.id ∈ cat.ids := by
  obtain ⟨t, -, hmem, -⟩ := h.inherits_iff.mp hp
  exact List.mem_map.mpr ⟨p, Array.mem_toList_iff.mpr hmem, rfl⟩

/-! ### Fingerprints on the way -/

theorem id_ne_of_mem (hsimple : ((c :: way).map (·.id)).Nodup) (hp : p ∈ way) : p.id ≠ c.id := by
  rw [List.map_cons, List.nodup_cons] at hsimple
  exact fun hpc => hsimple.1 (hpc ▸ List.mem_map.mpr ⟨p, hp, rfl⟩)

theorem ids_climb_subset (cat : Catalog) (fresh : List Fingerprint) (c : ClassDecl) :
    (cat.climb fresh c).map (·.id) ⊆ c.id :: fresh := by
  induction fresh, c using climb_induction cat with
  | last fresh c hlast => simp [climb_of_end hlast]
  | step fresh c p hp hfresh ih =>
    rw [climb_of_inherits hp hfresh, List.map_cons]
    refine List.cons_subset_cons _ (List.Subset.trans ih ?_)
    exact List.cons_subset.mpr ⟨hfresh, List.erase_subset⟩

theorem nodup_ids_climb (hfresh : fresh.Nodup) (hc : c.id ∉ fresh) : ((cat.climb fresh c).map (·.id)).Nodup := by
  induction fresh, c using climb_induction cat with
  | last fresh c hlast => simp [climb_of_end hlast]
  | step fresh c p hp hmem ih =>
    rw [climb_of_inherits hp hmem, List.map_cons, List.nodup_cons]
    refine ⟨fun hcmem => ?_, ih (hfresh.erase _) hfresh.not_mem_erase⟩
    rcases List.mem_cons.mp (cat.ids_climb_subset _ p hcmem) with hcp | hcfresh
    · exact hc (hcp ▸ hmem)
    · exact hc (List.mem_of_mem_erase hcfresh)

/-! ### Going on as long as possible -/

/-- A climb goes as far as any way whose classes are all fresh. -/
theorem isPrefix_climb (hchain : (c :: way).IsChain cat.Inherits) (hsimple : ((c :: way).map (·.id)).Nodup)
    (hfresh : ∀ d ∈ way, d.id ∈ fresh) : c :: way <+: cat.climb fresh c := by
  induction fresh, c using climb_induction cat generalizing way with
  | last fresh c hlast =>
    rw [climb_of_end hlast]
    cases way with
    | nil => exact List.prefix_rfl
    | cons d rest =>
      rw [List.isChain_cons_cons] at hchain
      exact absurd (hfresh d (List.mem_cons_self ..)) (hlast d hchain.1)
  | step fresh c p hp hmem ih =>
    rw [climb_of_inherits hp hmem, List.prefix_cons_inj]
    cases way with
    | nil => exact List.nil_prefix
    | cons d rest =>
      rw [List.isChain_cons_cons] at hchain
      obtain rfl : d = p := Option.some.inj (hchain.1.symm.trans hp)
      have hrest : ((d :: rest).map (·.id)).Nodup := (List.nodup_cons.mp hsimple).2
      refine ih hchain.2 hrest fun e he => ?_
      exact (List.mem_erase_of_ne (id_ne_of_mem hrest he)).mpr (hfresh e (List.mem_cons_of_mem _ he))

namespace Indexed
variable (h : cat.Indexed)
include h

theorem nodup_ids_lineage (c : ClassDecl) : ((cat.lineage c).map (·.id)).Nodup :=
  nodup_ids_climb (h.nodup_ids.erase _) h.nodup_ids.not_mem_erase

/-- No declaration is on the lineage twice; the class itself need not be one. -/
theorem length_lineage_le (c : ClassDecl) : (cat.lineage c).length ≤ cat.size + 1 := by
  have hsubset : (cat.lineage c).map (·.id) ⊆ c.id :: cat.ids :=
    List.Subset.trans (cat.ids_climb_subset _ c) (List.cons_subset_cons _ List.erase_subset)
  have hle := ((h.nodup_ids_lineage c).subperm hsubset).length_le
  simpa [ids, size] using hle

theorem ascent_lineage (c : ClassDecl) : Ascent cat c (cat.lineage c) where
  start := by
    obtain ⟨above, habove⟩ := cat.mem_lineage_self c
    rw [habove, List.head?_cons]
  upward := (cat.lineage_isChain c).imp fun _ _ => h.inherits_iff.mp
  simple := h.nodup_ids_lineage c

theorem isPrefix_lineage (hway : Ascent cat c way) : way <+: cat.lineage c := by
  obtain ⟨hstart, hupward, hsimple⟩ := hway
  cases way with
  | nil => exact List.nil_prefix
  | cons d rest =>
    obtain rfl : d = c := Option.some.inj hstart
    have hchain : (d :: rest).IsChain cat.Inherits := hupward.imp fun _ _ => h.inherits_iff.mpr
    refine isPrefix_climb hchain hsimple fun e he => ?_
    have habove : TransGen cat.Inherits d e :=
      (List.pairwise_cons.mp ((hchain.imp fun _ _ => .single).pairwise)).1 e he
    obtain ⟨b, -, hbe⟩ := TransGen.tail'_iff.mp habove
    exact (List.mem_erase_of_ne (id_ne_of_mem hsimple he)).mpr (h.id_mem_ids hbe)

theorem superclass_of_last {below : List ClassDecl} {t : HostType} (hlast : cat.lineage c = below ++ [p])
    (ht : p.superclass = some t) : ¬cat.Declares t.fingerprint ∨ t.fingerprint ∈ (cat.lineage c).map (·.id) := by
  by_cases hdecl : cat.Declares t.fingerprint
  · obtain ⟨q, hq, hid⟩ := hdecl
    obtain ⟨below', last, hlast', hend⟩ := h.lineage_end c
    obtain rfl : p = last := by
      have hsame := hlast.symm.trans hlast'
      simpa using congrArg List.getLast? hsame
    exact Or.inr (hid ▸ hend q (h.inherits_iff.mpr ⟨t, ht, hq, hid⟩))
  · exact Or.inl hdecl

end Indexed

/-! ### Climbers -/

/-- Where a climber is: the class that comes next, if there is one, and the fingerprints of those that have come. -/
structure Climber where
  next : Option ClassDecl
  visited : List Fingerprint

namespace Climber

def start (c : ClassDecl) : Climber := ⟨some c, []⟩

/-- Goes to the next class and looks ahead to its superclass. The climb is over when a fingerprint comes again. -/
def advance (cat : Catalog) (k : Climber) : Option (ClassDecl × Climber) :=
  match k.next with
  | none => none
  | some c => if c.id ∈ k.visited then none else some (c, ⟨cat.superclass? c, c.id :: k.visited⟩)

/-- The first so many classes that the climber comes to, or all of them if there are fewer. -/
def first (cat : Catalog) : Nat → Climber → List ClassDecl
  | 0, _ => []
  | n + 1, k =>
    match k.advance cat with
    | none => []
    | some (c, k') => c :: first cat n k'

theorem first_over {k : Climber} (hk : k.advance cat = none) (n : Nat) : first cat n k = [] := by
  cases n with
  | zero => rfl
  | succ n => rw [first, hk]

theorem first_succ (hc : c.id ∉ visited) (n : Nat) :
    first cat (n + 1) ⟨some c, visited⟩ = c :: first cat n ⟨cat.superclass? c, c.id :: visited⟩ := by
  have hadvance : advance cat ⟨some c, visited⟩ = some (c, ⟨cat.superclass? c, c.id :: visited⟩) := if_neg hc
  rw [first, hadvance]

/-- What is fresh is what is declared, less the classes that have come and the one that comes next. -/
structure InStep (cat : Catalog) (fresh : List Fingerprint) (c : ClassDecl) (visited : List Fingerprint) : Prop where
  new : c.id ∉ visited
  nodup : fresh.Nodup
  fresh_iff : ∀ id, id ∈ fresh ↔ id ∈ cat.ids ∧ id ∉ c.id :: visited

theorem InStep.next (hstep : InStep cat fresh c visited) (hp : p.id ∈ fresh) :
    InStep cat (fresh.erase p.id) p (c.id :: visited) where
  new := ((hstep.fresh_iff _).mp hp).2
  nodup := hstep.nodup.erase _
  fresh_iff id := by
    rw [hstep.nodup.mem_erase_iff, hstep.fresh_iff, List.mem_cons (b := p.id), not_or, and_left_comm]

theorem first_eq_take_climb (h : cat.Indexed) (hstep : InStep cat fresh c visited) (n : Nat) :
    first cat n ⟨some c, visited⟩ = (cat.climb fresh c).take n := by
  induction fresh, c using climb_induction cat generalizing visited n with
  | last fresh c hlast =>
    cases n with
    | zero => rfl
    | succ n =>
      rw [first_succ hstep.new, climb_of_end hlast, List.take_succ_cons, List.take_nil, first_over]
      cases hp : cat.superclass? c with
      | none => rfl
      | some p =>
        -- The superclass is declared, so that it can only be used up because it has come before.
        have hcome : p.id ∈ c.id :: visited := by
          by_contra hnew
          exact hlast p hp ((hstep.fresh_iff _).mpr ⟨h.id_mem_ids hp, hnew⟩)
        exact if_pos hcome
  | step fresh c p hp hfresh ih =>
    cases n with
    | zero => rfl
    | succ n =>
      rw [first_succ hstep.new, climb_of_inherits hp hfresh, List.take_succ_cons,
        show cat.superclass? c = some p from hp, ih (hstep.next hfresh)]

theorem inStep_start (h : cat.Indexed) (c : ClassDecl) : InStep cat (cat.ids.erase c.id) c [] where
  new := List.not_mem_nil
  nodup := h.nodup_ids.erase _
  fresh_iff id := by
    rw [h.nodup_ids.mem_erase_iff, List.mem_singleton, and_comm]

end Climber

/-- A climber goes along the lineage to its end, which comes after no more classes than are declared and one. The
    lineage is a way up from the class, and all ways up are beginnings of it. It ends at a class without a superclass,
    or whose superclass is not declared or has the fingerprint of a class on it. A declared class can be assigned to all
    classes on its lineage. -/
theorem lineage_longest_ascent (hcat : cat.Reachable) (c : ClassDecl) :
    ((∀ n, Climber.first cat n (.start c) = (cat.lineage c).take n) ∧ (cat.lineage c).length ≤ cat.size + 1) ∧
    (Ascent cat c (cat.lineage c) ∧ ∀ way, Ascent cat c way → way <+: cat.lineage c) ∧
    (∃ below last, cat.lineage c = below ++ [last] ∧ ∀ t, last.superclass = some t →
      ¬cat.Declares t.fingerprint ∨ t.fingerprint ∈ (cat.lineage c).map (·.id)) ∧
    (c ∈ cat.entries → ∀ d ∈ cat.lineage c, cat.assignable c.type d.type = true) := by
  have h := hcat.indexed
  refine ⟨⟨Climber.first_eq_take_climb h (Climber.inStep_start h c), h.length_lineage_le c⟩,
    ⟨h.ascent_lineage c, fun way => h.isPrefix_lineage⟩, ?_, fun hc d hd => ?_⟩
  · obtain ⟨below, last, hlast, -⟩ := h.lineage_end c
    exact ⟨below, last, hlast, fun t => h.superclass_of_last hlast⟩
  · exact h.assignable_of_extends (h.extends_of_mem_lineage hc hd)

/-- The name of a boat, for a class that is not declared and is built upon a tug. -/
def lighter : ClassDecl := { ClassDecl.classNamed "port.Boat" with superclass := some tug.type }

-- Stated together, so that the catalog is evaluated once.
theorem port_climbed :
    Climber.first port (port.size + 1) (.start tug) = [tug, boat, vessel] ∧
      Climber.first port (port.size + 1) (.start lighter) = [lighter, tug] ∧
      tug ∈ port.entries ∧ lighter ∉ port.entries := by
  decide +kernel

/-- A tug is on no cycle, but boats and vessels above it are. The lighter is not declared, and the boat above the tug
    has its fingerprint. -/
theorem lineage_longest_ascent_port :
    port.Reachable ∧ tug ∈ port.entries ∧ port.lineage tug = [tug, boat, vessel] ∧
      port.assignable tug.type vessel.type = true ∧ lighter ∉ port.entries ∧ port.lineage lighter = [lighter, tug] := by
  obtain ⟨htug, hlighter, hmem, hnot⟩ := port_climbed
  have hcat : port.Reachable := Reachable.runtime.declareAll _
  obtain ⟨⟨hclimb, hlength⟩, -, -, hassign⟩ := lineage_longest_ascent hcat tug
  obtain ⟨⟨hclimb', hlength'⟩, -⟩ := lineage_longest_ascent hcat lighter
  rw [hclimb, List.take_of_length_le hlength] at htug
  rw [hclimb', List.take_of_length_le hlength'] at hlighter
  exact ⟨hcat, hmem, htug, hassign hmem vessel (by simp [htug]), hnot, hlighter⟩

end Marshal.Catalog
