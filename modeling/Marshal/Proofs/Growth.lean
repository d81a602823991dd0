import Marshal.Export
import Marshal.Proofs.Assignability
import Marshal.Proofs.Lineages
import Marshal.Proofs.Peers
import Marshal.Proofs.Updates
import Mathlib.Data.List.Infix

/-! # What grows with a catalog

Updates may declare supertypes that were unknown, anywhere in the hierarchy, so that lineages go on and types become
assignable. Nothing that was there is lost: lineages and exports only grow at their ends, a factory that was found is
still the one, and a field that was found can only give way to one of a nearer class. -/

namespace Marshal
open Relation

namespace Catalog
variable {cat cat' : Catalog}

/-- The larger catalog has the declarations of the smaller one first. -/
structure GrowsTo (cat cat' : Catalog) : Prop where
  smaller : cat.Indexed
  larger : cat'.Indexed
  entries : cat.entries.toList <+: cat'.entries.toList

theorem Reachable.growsTo (h : cat.Reachable) (updates : List Update) : cat.GrowsTo (cat.after updates) :=
  ⟨h.indexed, (h.after updates).indexed, h.entries_after updates⟩

namespace GrowsTo
variable (h : cat.GrowsTo cat')
include h

theorem find?_eq_some {id : Fingerprint} {c : ClassDecl} (hc : cat.find? id = some c) : cat'.find? id = some c := by
  rw [h.smaller.find?_eq_some, ← Array.mem_toList_iff] at hc
  rw [h.larger.find?_eq_some, ← Array.mem_toList_iff]
  exact ⟨h.entries.subset hc.1, hc.2⟩

theorem ids_sublist : cat.ids.Sublist cat'.ids := (h.entries.map ClassDecl.id).sublist

/-! ### Lineages -/

theorem inherits {c p : ClassDecl} (hp : cat.Inherits c p) : cat'.Inherits c p := by
  obtain ⟨t, ht, hfind⟩ := Option.bind_eq_some_iff.mp hp
  exact Option.bind_eq_some_iff.mpr ⟨t, ht, h.find?_eq_some hfind⟩

/-- A climb takes the same steps, and may go on where it ended. -/
theorem climb_isPrefix {fresh fresh' : List Fingerprint} (hfresh : fresh.Sublist fresh') (c : ClassDecl) :
    cat.climb fresh c <+: cat'.climb fresh' c := by
  induction fresh, c using climb_induction cat generalizing fresh' with
  | last fresh c hlast =>
    obtain ⟨above, habove⟩ := cat'.climb_cons fresh' c
    rw [climb_of_end hlast, habove]
    exact List.prefix_append [c] above
  | step fresh c p hp hmem ih =>
    rw [climb_of_inherits hp hmem, climb_of_inherits (h.inherits hp) (hfresh.subset hmem), List.prefix_cons_inj]
    exact ih (hfresh.erase p.id)

theorem lineage_isPrefix (c : ClassDecl) : cat.lineage c <+: cat'.lineage c :=
  h.climb_isPrefix (h.ids_sublist.erase c.id) c

/-! ### Assignability -/

theorem refers {a b : Fingerprint} (hab : cat.Refers a b) : cat'.Refers a b := by
  obtain ⟨c, hfind, ht⟩ := refers_iff.mp hab
  exact refers_iff.mpr ⟨c, h.find?_eq_some hfind, ht⟩

theorem assignable {source target : HostType} (hassign : cat.assignable source target = true) :
    cat'.assignable source target = true := by
  refine h.larger.assignable_iff.mpr ((h.smaller.assignable_iff.mp hassign).imp_right ?_)
  rintro ⟨a, b, ha, hb, hpath⟩
  exact ⟨a, b, ha, hb, ReflTransGen.mono (fun _ _ => h.refers) _ _ hpath⟩

end GrowsTo

end Catalog

open Catalog
variable {cat cat' : Catalog} {s : Settings} {c : ClassDecl}

/-! ### Exports -/

/-- What comes later shadows nothing. -/
theorem Export.unshadowed_isPrefix {es es' : List Export} (h : es <+: es') (taken : List String) :
    unshadowed taken es <+: unshadowed taken es' := by
  obtain ⟨more, rfl⟩ := h
  induction es generalizing taken with
  | nil => exact List.nil_prefix
  | cons e rest ih =>
    rw [List.cons_append, unshadowed, unshadowed]
    split
    · exact ih taken
    · exact (List.prefix_cons_inj e).mpr (ih _)

theorem Catalog.GrowsTo.exports_isPrefix (h : cat.GrowsTo cat') (s : Settings) (c : ClassDecl) :
    Export.all cat s c <+: Export.all cat' s c :=
  Export.unshadowed_isPrefix ((h.lineage_isPrefix c).flatMap _) []

/-! ### Members of peers -/

namespace PeerMembers
variable {name : String} {required : HostType} {i : Nat} {d : ClassDecl}

/-- `d` is the class at position `i` of the lineage of `c`, and the first on it with such a field. -/
def FieldAt (cat : Catalog) (name : String) (required : HostType) (c : ClassDecl) (i : Nat) (d : ClassDecl) : Prop :=
  HasField cat name required d ∧
    ∃ before after, cat.lineage c = before ++ d :: after ∧ before.length = i ∧
      ∀ b ∈ before, ¬HasField cat name required b

theorem nearestField_iff : NearestField cat name required c d ↔ ∃ i, FieldAt cat name required c i d := by
  constructor
  · rintro ⟨hd, before, after, hsplit, hbefore⟩
    exact ⟨before.length, hd, before, after, hsplit, rfl, hbefore⟩
  · rintro ⟨_, hd, before, after, hsplit, -, hbefore⟩
    exact ⟨hd, before, after, hsplit, hbefore⟩

theorem hasField_of_growsTo (h : cat.GrowsTo cat') (hd : HasField cat name required d) :
    HasField cat' name required d := by
  obtain ⟨f, hf, hassign⟩ := hd
  exact ⟨f, hf, h.assignable hassign⟩

/-- Some class has such a field first, and none that has one is nearer. -/
theorem exists_fieldAt {before after : List ClassDecl} (hsplit : cat.lineage c = before ++ d :: after)
    (hd : HasField cat name required d) : ∃ j ≤ before.length, ∃ e, FieldAt cat name required c j e := by
  have hmem : d ∈ cat.lineage c := hsplit ▸ List.mem_append_right _ (List.mem_cons_self ..)
  obtain ⟨_, hfound⟩ := Option.isSome_iff_exists.mp (isSome_findSome?_ownField.mpr ⟨d, hmem, hd⟩)
  obtain ⟨e, ⟨he, nearer, farther, hnearest, hnone⟩, -⟩ := findSome?_ownField_eq_some.mp hfound
  refine ⟨nearer.length, Nat.le_of_not_lt fun hlt => ?_, e, he, nearer, farther, hnearest, rfl, hnone⟩
  -- Otherwise `d` would be among the classes that come before the first with such a field.
  have hbegun : before ++ [d] <+: cat.lineage c := ⟨after, by rw [hsplit, List.append_assoc, List.singleton_append]⟩
  have hle : (before ++ [d]).length ≤ nearer.length := by rwa [List.length_append, List.length_singleton]
  have hearly := List.prefix_of_prefix_length_le hbegun ⟨e :: farther, hnearest.symm⟩ hle
  exact hnone d (hearly.subset (List.mem_append_right _ (List.mem_singleton_self d))) hd

theorem fieldAt_of_growsTo (h : cat.GrowsTo cat') (hd : FieldAt cat name required c i d) :
    ∃ j ≤ i, ∃ e, FieldAt cat' name required c j e := by
  obtain ⟨hfield, before, after, hsplit, rfl, -⟩ := hd
  obtain ⟨more, hmore⟩ := h.lineage_isPrefix c
  have hlonger : cat'.lineage c = before ++ d :: (after ++ more) := by
    rw [← hmore, hsplit, List.append_assoc, List.cons_append]
  exact exists_fieldAt hlonger (hasField_of_growsTo h hfield)

/-- What is found along the lineage is found at the same class afterwards, or at one nearer. -/
theorem nearer_of_growsTo (h : cat.GrowsTo cat') {member : Member}
    (hm : (cat.lineage c).findSome? (ownField cat name required) = some member) :
    ∃ i d, FieldAt cat name required c i d ∧ member = ⟨d.name, name⟩ ∧
      ∃ j ≤ i, ∃ e, FieldAt cat' name required c j e ∧
        (cat'.lineage c).findSome? (ownField cat' name required) = some ⟨e.name, name⟩ := by
  obtain ⟨d, hd, rfl⟩ := findSome?_ownField_eq_some.mp hm
  obtain ⟨i, hd⟩ := nearestField_iff.mp hd
  obtain ⟨j, hji, e, he⟩ := fieldAt_of_growsTo h hd
  exact ⟨i, d, hd, rfl, j, hji, e, he, findSome?_ownField_eq_some.mpr ⟨e, nearestField_iff.mpr ⟨j, he⟩, rfl⟩⟩

end PeerMembers

open PeerMembers

/-- Whatever updates follow, types stay assignable, lineages and exports stay as they begin, and a factory that was
    found for a peer is still the one. Where the handle or the extractor was read from the class at some position of the
    lineage, it is read from that class or from a nearer one. -/
theorem Catalog.after_extends (hcat : cat.Reachable) (updates : List Update) (s : Settings) :
    let cat' := cat.after updates
    (∀ source target, cat.assignable source target = true → cat'.assignable source target = true) ∧
    ∀ c,
      cat.lineage c <+: cat'.lineage c ∧ Export.all cat s c <+: Export.all cat' s c ∧
      (∀ f, (ofClass cat s c).factory = some f → (ofClass cat' s c).factory = some f) ∧
      (∀ m, (ofClass cat s c).peerField = some m →
        ∃ i d, FieldAt cat s.members.peerField s.handleType c i d ∧ m = ⟨d.name, s.members.peerField⟩ ∧
          ∃ j ≤ i, ∃ e, FieldAt cat' s.members.peerField s.handleType c j e ∧
            (ofClass cat' s c).peerField = some ⟨e.name, s.members.peerField⟩) ∧
      ∀ m, (ofClass cat s c).extractor = some m →
        ∃ i d, FieldAt cat s.members.extractorField s.extractorType c i d ∧ m = ⟨d.name, s.members.extractorField⟩ ∧
          ∃ j ≤ i, ∃ e, FieldAt cat' s.members.extractorField s.extractorType c j e ∧
            (ofClass cat' s c).extractor = some ⟨e.name, s.members.extractorField⟩ := by
  intro cat'
  have h := hcat.growsTo updates
  refine ⟨fun _ _ => h.assignable, fun c => ⟨h.lineage_isPrefix c, h.exports_isPrefix s c, fun f hf => ?_,
    fun m hm => nearer_of_growsTo h hm, fun m hm => nearer_of_growsTo h hm⟩⟩
  exact (h.lineage_isPrefix c).findSome?_eq_some hf

/-! A gauge has a field of a type that is not known yet, so that its handle is read from the widget above. Of what is
declared later, the type of that field is one of handles, and the widget is below itself. -/

def widget : ClassDecl :=
  { ClassDecl.classNamed "ui.Widget" with
    superclass := some (.named "ui.Panel"), fields := [⟨"jsoPeer", .named RuntimeType.handle, {}⟩] }

def gauge : ClassDecl :=
  { ClassDecl.classNamed "ui.Gauge" with
    superclass := some widget.type, fields := [⟨"jsoPeer", .named "ui.Handle", {}⟩] }

def gaugeHandle : ClassDecl :=
  { ClassDecl.classNamed "ui.Handle" with superclass := some (.named RuntimeType.handle) }

def panel : ClassDecl := { ClassDecl.classNamed "ui.Panel" with superclass := some widget.type }

def gauges : Catalog := (Catalog.runtime.declareAll [gauge, widget]).1

-- Stated together, so that the catalogs are evaluated once.
theorem gauges_evaluated :
    let later := gauges.after [.declare gaugeHandle, .declare panel]
    (gauges.assignable gauge.type widget.type = true ∧ gauges.lineage gauge = [gauge, widget] ∧
      (ofClass gauges {} gauge).peerField = some ⟨widget.name, "jsoPeer"⟩) ∧
    later.lineage gauge = [gauge, widget, panel] ∧
      (ofClass later {} gauge).peerField = some ⟨gauge.name, "jsoPeer"⟩ := by
  decide +kernel

theorem Catalog.after_extends_gauges :
    let later := gauges.after [.declare gaugeHandle, .declare panel]
    gauges.Reachable ∧ (ofClass gauges {} gauge).peerField = some ⟨widget.name, "jsoPeer"⟩ ∧
      later.assignable gauge.type widget.type = true ∧ [gauge, widget] <+: later.lineage gauge ∧
      ∃ j ≤ 1, ∃ e, FieldAt later "jsoPeer" (.named RuntimeType.handle) gauge j e ∧ e.name = gauge.name := by
  dsimp only
  obtain ⟨⟨hassign, hlineage, hfield⟩, -, hlater⟩ := gauges_evaluated
  have hcat : gauges.Reachable := Reachable.runtime.declareAll _
  obtain ⟨hkept, hgauge⟩ := after_extends hcat [.declare gaugeHandle, .declare panel] {}
  obtain ⟨hbegins, -, -, hread, -⟩ := hgauge gauge
  rw [hlineage] at hbegins
  obtain ⟨i, d, ⟨-, before, rest, hsplit, rfl, -⟩, -, j, hj, e, he, hfound⟩ := hread _ hfield
  have hlength := congrArg List.length (hlineage.symm.trans hsplit)
  rw [List.length_append, List.length_cons, List.length_cons, List.length_cons, List.length_nil] at hlength
  have hname := congrArg Member.owner (Option.some.inj (hfound.symm.trans hlater))
  exact ⟨hcat, hfield, hkept _ _ hassign, hbegins, j, by omega, e, he, hname⟩

end Marshal
