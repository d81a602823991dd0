import Marshal.Proofs.Assignability
import Mathlib.Data.List.Chain

/-! # Searches for a supertype

Whether a class can be assigned to another is found out by a search that keeps where it has been and where it still
has to go. It may take what is pending in any order, the last first or the first first: every search comes to an end,
and whatever order it takes, it meets the target exactly if references lead there. -/

namespace Marshal.Catalog
open Relation
variable {cat : Catalog} {a target : Fingerprint}

/-! ### One turn -/

/-- How far a search has come. A fingerprint may be pending several times. -/
structure Search where
  visited : List Fingerprint
  pending : List Fingerprint

namespace Search

def start (id : Fingerprint) : Search := ⟨[], [id]⟩

/-- A turn takes any pending fingerprint but the target, which would end the search. Where the search has not been
    before, it goes on to the supertypes. -/
inductive Turn (cat : Catalog) (target : Fingerprint) : Search → Search → Prop
  | skip {visited before after : List Fingerprint} {id : Fingerprint} (hne : id ≠ target) (hvisited : id ∈ visited) :
      Turn cat target ⟨visited, before ++ id :: after⟩ ⟨visited, before ++ after⟩
  | visit {visited before after : List Fingerprint} {id : Fingerprint} (hne : id ≠ target) (hnew : id ∉ visited) :
      Turn cat target ⟨visited, before ++ id :: after⟩ ⟨id :: visited, before ++ after ++ cat.parents id⟩

/-! ### The end -/

/-- The declarations where the search has not been, with room for the references of each, and what is pending. -/
def left (cat : Catalog) (s : Search) : Nat :=
  (cat.ids.filter (· ∉ s.visited)).length * (cat.breadth + 1) + s.pending.length

theorem ids_filter_cons (cat : Catalog) (id : Fingerprint) (visited : List Fingerprint) :
    cat.ids.filter (· ∉ id :: visited) = (cat.ids.filter (· ∉ visited)).filter (· ≠ id) := by
  rw [List.filter_filter]
  refine List.filter_congr fun x _ => ?_
  simp only [List.mem_cons, not_or, Bool.decide_and]

theorem left_lt_of_turn (h : cat.Indexed) {s s' : Search} (hturn : Turn cat target s s') :
    s'.left cat < s.left cat := by
  cases hturn with
  | skip hne hvisited =>
    simp only [left, List.length_append, List.length_cons]
    omega
  | @visit visited before after id hne hnew =>
    simp only [left, ids_filter_cons, List.length_append, List.length_cons]
    by_cases hid : id ∈ cat.ids
    · -- One declaration fewer is left, and it has no more references than there was room for.
      have hmem : id ∈ cat.ids.filter (· ∉ visited) := List.mem_filter.mpr ⟨hid, decide_eq_true hnew⟩
      have hlt : ((cat.ids.filter (· ∉ visited)).filter (· ≠ id)).length < (cat.ids.filter (· ∉ visited)).length :=
        List.length_filter_lt_length_iff_exists.mpr ⟨id, hmem, by simp⟩
      have hle := Nat.mul_le_mul_right (cat.breadth + 1) (Nat.succ_le_of_lt hlt)
      have hparents := length_parents_le cat id
      rw [Nat.succ_mul] at hle
      omega
    · -- What is not declared refers to nothing.
      have hparents : cat.parents id = [] :=
        List.eq_nil_iff_forall_not_mem.mpr fun b hb => hid (h.mem_ids_of_refers hb)
      have hle := Nat.mul_le_mul_right (cat.breadth + 1)
        (List.length_filter_le (fun x => decide (x ≠ id)) (cat.ids.filter (· ∉ visited)))
      rw [hparents, List.length_nil]
      omega

/-- A search can go on until it has an answer. -/
theorem answer_of_no_turn {s : Search} (hno : ∀ s', ¬Turn cat target s s') : target ∈ s.pending ∨ s.pending = [] := by
  obtain ⟨visited, pending⟩ := s
  cases pending with
  | nil => exact Or.inr rfl
  | cons id rest =>
    by_cases hne : id = target
    · exact Or.inl (hne ▸ List.mem_cons_self ..)
    · by_cases hvisited : id ∈ visited
      · exact absurd (@Turn.skip cat target visited [] rest id hne hvisited) (hno _)
      · exact absurd (@Turn.visit cat target visited [] rest id hne hvisited) (hno _)

theorem turn_wellFounded (h : cat.Indexed) (target : Fingerprint) : WellFounded (flip (Turn cat target)) :=
  Subrelation.wf (fun hturn => left_lt_of_turn h hturn) (measure (left cat)).wf

/-! ### The answer -/

/-- The search has been there, or has still to go there. -/
def Met (s : Search) (id : Fingerprint) : Prop := id ∈ s.visited ∨ id ∈ s.pending

/-- A turn forgets nothing. -/
theorem met_of_turn {s s' : Search} (hturn : Turn cat target s s') {id : Fingerprint} (hmet : s.Met id) :
    s'.Met id := by
  cases hturn with
  | skip hne hvisited =>
    rcases hmet with hid | hid
    · exact Or.inl hid
    · simp only [List.mem_append, List.mem_cons] at hid
      rcases hid with hid | rfl | hid
      · exact Or.inr (List.mem_append_left _ hid)
      · exact Or.inl hvisited
      · exact Or.inr (List.mem_append_right _ hid)
  | visit hne hnew =>
    rcases hmet with hid | hid
    · exact Or.inl (List.mem_cons_of_mem _ hid)
    · simp only [List.mem_append, List.mem_cons] at hid
      rcases hid with hid | rfl | hid
      · exact Or.inr (List.mem_append_left _ (List.mem_append_left _ hid))
      · exact Or.inl (List.mem_cons_self ..)
      · exact Or.inr (List.mem_append_left _ (List.mem_append_right _ hid))

/-- What a turn meets for the first time is what something met before refers to. -/
theorem met_before_turn {s s' : Search} (hturn : Turn cat target s s') {id : Fingerprint} (hmet : s'.Met id) :
    s.Met id ∨ ∃ b, s.Met b ∧ cat.Refers b id := by
  cases hturn with
  | skip hne hvisited =>
    refine Or.inl (hmet.imp_right fun hid => ?_)
    simp only [List.mem_append, List.mem_cons] at hid ⊢
    exact hid.imp_right Or.inr
  | @visit visited before after b hne hnew =>
    have hb : Met ⟨visited, before ++ b :: after⟩ b := Or.inr (by simp)
    simp only [Met, List.mem_cons, List.mem_append] at hmet
    rcases hmet with (rfl | hid) | (hid | hid) | hid
    · exact Or.inl hb
    · exact Or.inl (Or.inl hid)
    · exact Or.inl (Or.inr (List.mem_append_left _ hid))
    · exact Or.inl (Or.inr (List.mem_append_right _ (List.mem_cons_of_mem _ hid)))
    · exact Or.inr ⟨b, hb, hid⟩

/-- A search that began at `a` has met only what references lead to from there. Where it has been, it has met all
    supertypes, and the target is not among these places. -/
structure Faithful (cat : Catalog) (target a : Fingerprint) (s : Search) : Prop where
  begun : s.Met a
  met : ∀ id, s.Met id → ReflTransGen cat.Refers a id
  closed : ∀ id ∈ s.visited, ∀ b, cat.Refers id b → s.Met b
  missed : target ∉ s.visited

theorem faithful_start (cat : Catalog) (target a : Fingerprint) : (start a).Faithful cat target a where
  begun := Or.inr (List.mem_singleton_self a)
  met id hmet := by
    rcases hmet with hid | hid
    · cases hid
    · exact List.mem_singleton.mp hid ▸ .refl
  closed id hid := nomatch hid
  missed hmem := nomatch hmem

theorem Faithful.turn {s s' : Search} (h : s.Faithful cat target a) (hturn : Turn cat target s s') :
    s'.Faithful cat target a where
  begun := met_of_turn hturn h.begun
  met id hmet := by
    rcases met_before_turn hturn hmet with hid | ⟨b, hb, hbid⟩
    · exact h.met id hid
    · exact (h.met b hb).tail hbid
  closed id hid b hb := by
    have hkept := fun hbefore => met_of_turn hturn (h.closed id hbefore b hb)
    cases hturn with
    | skip hne hvisited => exact hkept hid
    | visit hne hnew =>
      rcases List.mem_cons.mp hid with rfl | hid
      · exact Or.inr (List.mem_append_right _ hb)
      · exact hkept hid
  missed hmem := by
    cases hturn with
    | skip hne hvisited => exact h.missed hmem
    | visit hne hnew =>
      rcases List.mem_cons.mp hmem with rfl | hmem
      · exact hne rfl
      · exact h.missed hmem

theorem faithful_of_turns {s : Search} (hturns : ReflTransGen (Turn cat target) (start a) s) :
    s.Faithful cat target a := by
  induction hturns with
  | refl => exact faithful_start cat target a
  | tail _ hturn ih => exact ih.turn hturn

/-- When nothing is pending, all that references lead to has been visited, and so the target is none of it. -/
theorem Faithful.not_path {s : Search} (h : s.Faithful cat target a) (hend : s.pending = []) :
    ¬ReflTransGen cat.Refers a target := by
  have visited_of_met : ∀ id, s.Met id → id ∈ s.visited := by
    intro id hmet
    refine hmet.resolve_right ?_
    rw [hend]
    exact List.not_mem_nil
  have visited_of_path : ∀ id, ReflTransGen cat.Refers a id → id ∈ s.visited := by
    intro id hpath
    induction hpath with
    | refl => exact visited_of_met a h.begun
    | tail _ hbc ih => exact visited_of_met _ (h.closed _ ih _ hbc)
  exact fun hpath => h.missed (visited_of_path target hpath)

end Search

/-! ### Assignability -/

/-- References one after the other: each fingerprint but the last is that of a declared class, and the next one is that
    of a direct supertype of this class. -/
def LeadsAlong (cat : Catalog) (path : List Fingerprint) : Prop :=
  path.IsChain fun a b => ∃ c ∈ cat.entries, c.id = a ∧ ∃ t ∈ c.supertypes, t.fingerprint = b

namespace Indexed
variable (h : cat.Indexed)
include h

theorem refers_iff_entry {a b : Fingerprint} :
    cat.Refers a b ↔ ∃ c ∈ cat.entries, c.id = a ∧ ∃ t ∈ c.supertypes, t.fingerprint = b := by
  simp only [refers_iff, h.find?_eq_some, and_assoc]

theorem leadsAlong_iff {path : List Fingerprint} : cat.LeadsAlong path ↔ path.IsChain cat.Refers := by
  simp only [LeadsAlong, ← h.refers_iff_entry]

theorem path_iff_leadsAlong {a b : Fingerprint} : ReflTransGen cat.Refers a b ↔
    ∃ path, cat.LeadsAlong path ∧ path.head? = some a ∧ path.getLast? = some b := by
  simp only [h.leadsAlong_iff]
  constructor
  · intro hpath
    obtain ⟨rest, hchain, hlast⟩ := List.exists_isChain_cons_of_relationReflTransGen hpath
    exact ⟨a :: rest, hchain, rfl, by rw [List.getLast?_eq_some_getLast (List.cons_ne_nil _ _), hlast]⟩
  · rintro ⟨path, hchain, hhead, hlast⟩
    cases path with
    | nil => cases hhead
    | cons a' rest =>
      obtain rfl : a' = a := Option.some.inj hhead
      rw [List.getLast?_eq_some_getLast (List.cons_ne_nil _ _)] at hlast
      exact List.relationReflTransGen_of_exists_isChain_cons rest hchain (Option.some.inj hlast)

/-- Whichever turns a search has taken: if the target is pending, it can be assigned to; if nothing is, it cannot. -/
theorem assignable_of_turns {a b : ClassRef} {s : Search}
    (hturns : ReflTransGen (Search.Turn cat b.id) (.start a.id) s) :
    (b.id ∈ s.pending → cat.assignable (.object a) (.object b) = true) ∧
      (s.pending = [] → cat.assignable (.object a) (.object b) = false) := by
  have hs := Search.faithful_of_turns hturns
  refine ⟨fun hpending => h.assignable_object_iff.mpr (hs.met _ (Or.inr hpending)), fun hend => ?_⟩
  exact Bool.eq_false_iff.mpr (mt h.assignable_object_iff.mp (hs.not_path hend))

theorem assignable_trans {t u v : HostType} (htu : cat.assignable t u = true) (huv : cat.assignable u v = true) :
    cat.assignable t v = true := by
  rcases h.assignable_iff.mp htu with rfl | ⟨a, b, ha, hb, hab⟩
  · exact huv
  rcases h.assignable_iff.mp huv with rfl | ⟨b', c, hb', hc, hbc⟩
  · exact htu
  obtain rfl : b = b' := Option.some.inj (hb.symm.trans hb')
  exact h.assignable_iff.mpr (Or.inr ⟨a, c, ha, hc, hab.trans hbc⟩)

end Indexed

/-- Every search for a supertype ends, in whatever order it takes what is pending, and not before it has come to the
    target or has run out of what is pending. In the first case the one class can be assigned to the other, in the
    second it cannot. A type can be assigned to another exactly if the two are equal, or both are classes and references
    lead from the one to the other, so that of classes only the fingerprints matter. Being assignable is reflexive and
    transitive on all types. -/
theorem searches_decide_assignable (hcat : cat.Reachable) :
    (∀ target, WellFounded (flip (Search.Turn cat target)) ∧
      ∀ s, (∀ s', ¬Search.Turn cat target s s') → target ∈ s.pending ∨ s.pending = []) ∧
    (∀ (a b : ClassRef) (s : Search), ReflTransGen (Search.Turn cat b.id) (.start a.id) s →
      (b.id ∈ s.pending → cat.assignable (.object a) (.object b) = true) ∧
      (s.pending = [] → cat.assignable (.object a) (.object b) = false)) ∧
    (∀ source target, cat.assignable source target = true ↔
      source = target ∨
        ∃ a b, source.classRef? = some a ∧ target.classRef? = some b ∧
          ∃ path, cat.LeadsAlong path ∧ path.head? = some a.id ∧ path.getLast? = some b.id) ∧
    (∀ a a' b b' : ClassRef, a.id = a'.id → b.id = b'.id →
      cat.assignable (.object a) (.object b) = cat.assignable (.object a') (.object b')) ∧
    (∀ t, cat.assignable t t = true) ∧
    ∀ t u v, cat.assignable t u = true → cat.assignable u v = true → cat.assignable t v = true := by
  have h := hcat.indexed
  refine ⟨fun target => ⟨Search.turn_wellFounded h target, fun s => Search.answer_of_no_turn⟩,
    fun a b s => h.assignable_of_turns, fun source target => ?_, fun a a' b b' ha hb => ?_,
    fun t => h.assignable_iff.mpr (Or.inl rfl), fun t u v => h.assignable_trans⟩
  · simp only [h.assignable_iff, h.path_iff_leadsAlong]
  · rw [assignable_object, assignable_object, ha, hb]

/-! A tug refers to boats by its superclass and twice to what tows. Boats and vessels are above each other, and vessels
float; what tows and what floats is not declared. -/

def boat : ClassDecl := { ClassDecl.classNamed "port.Boat" with superclass := some (.named "port.Vessel") }

def tug : ClassDecl :=
  { ClassDecl.classNamed "port.Tug" with
    superclass := some boat.type, interfaces := [.named "port.Towing", .named "port.Towing"] }

def vessel : ClassDecl :=
  { ClassDecl.classNamed "port.Vessel" with superclass := some boat.type, interfaces := [.named "port.Floating"] }

def port : Catalog := (Catalog.runtime.declareAll [tug, boat, vessel]).1

def floating : ClassRef := .ofName (.parse "port.Floating")

-- Stated together, so that the catalog is evaluated once.
theorem port_evaluated :
    (tug ∈ port.entries ∧ boat ∈ port.entries ∧ vessel ∈ port.entries) ∧
      (port.parents boat.id = [vessel.id] ∧ port.parents vessel.id = [boat.id, floating.id] ∧
        port.parents floating.id = []) ∧
      [tug.id, boat.id, vessel.id, floating.id].Nodup := by
  decide +kernel

/-- A tug floats, by way of a boat and a vessel, but a boat is no tug: the search goes on to the vessel, then to what
    floats, and last to the boat again. -/
theorem searches_decide_assignable_port :
    port.Reachable ∧ port.assignable tug.type (.object floating) = true ∧
      port.assignable boat.type tug.type = false := by
  obtain ⟨⟨htug, hboat, hvessel⟩, ⟨hboatAbove, hvesselAbove, hfloatingAbove⟩, hdistinct⟩ := port_evaluated
  have hcat : port.Reachable := Reachable.runtime.declareAll _
  obtain ⟨-, hsearch, hassign, -⟩ := searches_decide_assignable hcat
  refine ⟨hcat, ?_, ?_⟩
  · refine (hassign _ _).mpr (Or.inr ⟨_, floating, rfl, rfl, [tug.id, boat.id, vessel.id, floating.id], ?_, rfl, rfl⟩)
    refine .cons_cons ⟨tug, htug, rfl, boat.type, by simp [tug, ClassDecl.supertypes], rfl⟩ ?_
    refine .cons_cons ⟨boat, hboat, rfl, .named "port.Vessel", by simp [boat, ClassDecl.supertypes], rfl⟩ ?_
    refine .cons_cons ⟨vessel, hvessel, rfl, .object floating, ?_, rfl⟩ (.singleton _)
    exact List.mem_append_right _ (List.mem_singleton_self _)
  · refine (hsearch ⟨boat.id, boat.name⟩ ⟨tug.id, tug.name⟩ ⟨[floating.id, vessel.id, boat.id], []⟩ ?_).2 rfl
    simp only [List.nodup_cons, List.mem_cons, List.not_mem_nil, or_false, not_or] at hdistinct
    obtain ⟨⟨htb, htv, htf⟩, ⟨hbv, hbf⟩, hvf, -⟩ := hdistinct
    have hfirst := @Search.Turn.visit port tug.id [] [] [] boat.id (Ne.symm htb) (by simp)
    have hsecond := @Search.Turn.visit port tug.id [boat.id] [] [] vessel.id (Ne.symm htv) (by simp [Ne.symm hbv])
    have hthird := @Search.Turn.visit port tug.id [vessel.id, boat.id] [boat.id] [] floating.id (Ne.symm htf)
      (by simp [Ne.symm hvf, Ne.symm hbf])
    have hlast := @Search.Turn.skip port tug.id [floating.id, vessel.id, boat.id] [] [] boat.id (Ne.symm htb) (by simp)
    rw [hboatAbove] at hfirst
    rw [hvesselAbove] at hsecond
    rw [hfloatingAbove] at hthird
    exact (((ReflTransGen.single hfirst).tail hsecond).tail hthird).tail hlast

end Marshal.Catalog
