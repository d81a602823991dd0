import Marshal.Proofs.Growth
import Marshal.Proofs.Likeness

/-! # Peers without an index

The index of peers has exactly the declared classes with some member of a peer, and for each of them what looking along
its lineage finds. So a converter with the index writes what one without it would write that looked for the members of
a peer whenever it met one. The index is made once: what is declared later is not in it, and does not change what is. -/

namespace Marshal
variable {cat cat' : Catalog} {s : Settings}

/-! ### The index -/

namespace PeerMembers

/-- Some convention is followed. -/
def HasMember (p : PeerMembers) : Prop := p.factory ≠ none ∨ p.peerField ≠ none ∨ p.extractor ≠ none

instance (p : PeerMembers) : Decidable p.HasMember := inferInstanceAs (Decidable (_ ∨ _ ∨ _))

theorem isEmpty_eq_false {p : PeerMembers} : p.isEmpty = false ↔ p.HasMember := by
  obtain ⟨factory, peerField, extractor⟩ := p
  cases factory <;> cases peerField <;> cases extractor <;> simp [isEmpty, HasMember]

theorem not_isEmpty_eq (p : PeerMembers) : (!p.isEmpty) = decide p.HasMember := by
  rw [← Bool.coe_iff_coe, decide_eq_true_iff, Bool.not_eq_true', isEmpty_eq_false]

/-- Without any member all of them are missing. -/
theorem eq_empty_of_not_hasMember {p : PeerMembers} (h : ¬p.HasMember) : p = {} := by
  obtain ⟨factory, peerField, extractor⟩ := p
  simp only [HasMember, not_or, not_not] at h
  obtain ⟨rfl, rfl, rfl⟩ := h
  rfl

/-- What looking along the lineage of the class of a type finds. -/
def resolve (cat : Catalog) (s : Settings) (t : HostType) : PeerMembers :=
  ((cat.declOf? t).map (ofClass cat s)).getD {}

end PeerMembers

open PeerMembers

namespace PeerIndex

theorem find?_eq_filter (h : cat.Indexed) (s : Settings) (id : Fingerprint) :
    (ofCatalog cat s).find? id = ((cat.find? id).map (.ofClass cat s)).filter fun p => decide p.HasMember := by
  refine Option.ext fun p => ?_
  rw [find?_ofCatalog h, Option.filter_eq_some_iff, Option.map_eq_some_iff, decide_eq_true_iff]
  simp only [h.find?_eq_some, isEmpty_eq_false]
  constructor
  · rintro ⟨c, hc, hid, hp, hmember⟩
    exact ⟨⟨c, ⟨hc, hid⟩, hp⟩, hmember⟩
  · rintro ⟨⟨c, ⟨hc, hid⟩, hp⟩, hmember⟩
    exact ⟨c, hc, hid, hp, hmember⟩

theorem size_ofCatalog (cat : Catalog) (s : Settings) :
    (ofCatalog cat s).size = cat.entries.toList.countP fun c => decide (PeerMembers.ofClass cat s c).HasMember := by
  have hcount : (fun p : Fingerprint × PeerMembers => !p.2.isEmpty) ∘ (fun c => (c.id, PeerMembers.ofClass cat s c)) =
      fun c => decide (PeerMembers.ofClass cat s c).HasMember := by
    funext c
    exact not_isEmpty_eq _
  rw [size, ofCatalog, List.filter_map, List.length_map, hcount, List.countP_eq_length_filter]

theorem of?_eq_filter (h : cat.Indexed) (s : Settings) (t : HostType) :
    (ofCatalog cat s).of? t = ((cat.declOf? t).map (.ofClass cat s)).filter fun p => decide p.HasMember := by
  unfold of? Catalog.declOf?
  cases t.classRef? with
  | none => rfl
  | some r => exact find?_eq_filter h s r.id

theorem isSome_of? (h : cat.Indexed) (t : HostType) :
    ((ofCatalog cat s).of? t).isSome = decide (resolve cat s t).HasMember := by
  rw [of?_eq_filter h, resolve]
  cases hdecl : cat.declOf? t with
  | none => rfl
  | some c =>
    rw [Option.map_some, Option.filter_some, Option.getD_some]
    split
    · next hmember => rw [hmember]; rfl
    · next hnot => rw [Bool.eq_false_iff.mpr hnot]; rfl

/-- Members that are left out of the index are all missing, so that they are found to be missing anyway. -/
theorem getD_of? (h : cat.Indexed) (t : HostType) : ((ofCatalog cat s).of? t).getD {} = resolve cat s t := by
  rw [of?_eq_filter h, resolve]
  cases hdecl : cat.declOf? t with
  | none => rfl
  | some c =>
    rw [Option.map_some, Option.filter_some, Option.getD_some]
    split
    · rfl
    · next hnot =>
      rw [decide_eq_true_iff] at hnot
      exact (eq_empty_of_not_hasMember hnot).symm

theorem bind_of? (h : cat.Indexed) (t : HostType) {α : Type} (member : PeerMembers → Option α)
    (hnone : member {} = none) : ((ofCatalog cat s).of? t).bind member = member (resolve cat s t) := by
  rw [← getD_of? h]
  cases (ofCatalog cat s).of? t with
  | none => exact hnone.symm
  | some p => rfl

end PeerIndex

/-! ### The strategy -/

namespace CustomStrategy

/-- Writes the text, or fails for the convention that is missing. -/
def writeOrMissing (s : Settings) (c : Conversion) (d : Direction) : Option String → Behaviour
  | some text => .write (.print text) (.stop (.ok ()))
  | none => .stop (.error (.missingConvention c.type.source d.convention (s.members.ofConvention d.convention)))

/-- The strategy for peers without an index: it looks for the members along the lineage whenever it is asked, in the
    catalog and under the settings that it was made for. -/
def lookingUp (cat₀ : Catalog) (s₀ : Settings) : CustomStrategy where
  name := "peering"
  accepts _ _ t := decide (resolve cat₀ s₀ t).HasMember
  behaviour cat s d c :=
    writeOrMissing s c d <|
      match d with
      | .toRuntime => (resolve cat₀ s₀ c.type).peerField.map fun m => c.name ++ "." ++ m.reference
      | .fromRuntime =>
        ((resolve cat₀ s₀ c.type).factory.filter fun f => cat.assignable f.returns c.type).map fun f => f.call s c.name
      | .extractor => (resolve cat₀ s₀ c.type).extractor.map (·.reference)

end CustomStrategy

namespace Strategy
open CustomStrategy

theorem accepts_lookingUp (h : cat.Indexed) (s : Settings) (live : Catalog) (now : Settings) (t : HostType) :
    (Strategy.peering (.ofCatalog cat s)).accepts live now t =
      (Strategy.custom (.lookingUp cat s)).accepts live now t :=
  PeerIndex.isSome_of? h t

theorem emission_writeOrMissing (s : Settings) (nest : Nesting) (hand : Handing) (c : Conversion) (d : Direction)
    (text : Option String) : (writeOrMissing s c d text).emission nest hand =
      text.elim (.fail (.missingConvention c.type.source d.convention (s.members.ofConvention d.convention)))
        .print := by
  cases text <;> rfl

theorem emitPeer_eq_lookingUp (h : cat.Indexed) (s : Settings) (k : Converter) (live : Catalog) (nest : Nesting)
    (hand : Handing) (c : Conversion) (d : Direction) :
    emitPeer k live (.ofCatalog cat s) c d =
      ((lookingUp cat s).behaviour live k.settings d c).emission nest hand := by
  cases d with
  | toRuntime =>
    simp only [emitPeer, lookingUp, emission_writeOrMissing, PeerIndex.bind_of? h c.type (·.peerField) rfl]
    cases (resolve cat s c.type).peerField <;> rfl
  | fromRuntime =>
    simp only [emitPeer, lookingUp, emission_writeOrMissing, PeerIndex.bind_of? h c.type (·.factory) rfl]
    cases (resolve cat s c.type).factory with
    | none => rfl
    | some f =>
      rw [Option.filter_some]
      show (if live.assignable f.returns c.type = true then Emission.print (f.call k.settings c.name) else _) = _
      split <;> rfl
  | extractor =>
    simp only [emitPeer, lookingUp, emission_writeOrMissing, PeerIndex.bind_of? h c.type (·.extractor) rfl]
    cases (resolve cat s c.type).extractor <;> rfl

end Strategy

/-! ### The converter -/

namespace Converter

/-- The built-in strategies without an index of peers. -/
def unindexed (cat : Catalog) (s : Settings) : Converter := ⟨s, [.identity, .callable, .custom (.lookingUp cat s)]⟩

/-- The strategy writes the same, whatever converter it is a part of. -/
theorem emissionOf_lookingUp (h : cat.Indexed) (s : Settings) {k k' : Converter} (hk : k.settings = k'.settings)
    (live : Catalog) (c : Conversion) (d : Direction) :
    k.emissionOf live (.peering (.ofCatalog cat s)) c d = k'.emissionOf live (.custom (.lookingUp cat s)) c d := by
  rw [emissionOf_peering, emissionOf, emissionBy, Strategy.emission, ← hk]
  exact Strategy.emitPeer_eq_lookingUp h s k live _ _ c d

theorem alike_unindexed (h : cat.Indexed) (s : Settings) (live : Catalog) :
    (builtIn cat s).Alike (unindexed cat s) live live := by
  have hsettings : (builtIn cat s).settings = (unindexed cat s).settings := rfl
  refine alike_of_third (fun _ => rfl) (fun _ _ => rfl) (fun _ => rfl) (fun t => ?_) rfl fun c d => ?_
  · exact Strategy.accepts_lookingUp h s live s t
  · exact emissionOf_lookingUp h s hsettings live c d

end Converter

open Converter

/-- The index has the members of every declared class that has any, and nothing else. Whatever is declared after it was
    made, the strategy that uses it accepts and writes what the one without an index does that looks the members up in
    the catalog as it was then, and so does the whole converter. Classes declared later are not in the index. -/
theorem PeerIndex.ofCatalog_agrees (hcat : cat.Reachable) (s : Settings) :
    let index := PeerIndex.ofCatalog cat s
    ((∀ c ∈ cat.entries, index.find? c.id =
        if (PeerMembers.ofClass cat s c).HasMember then some (.ofClass cat s c) else none) ∧
      (∀ id, ¬cat.Declares id → index.find? id = none) ∧
      index.size = cat.entries.toList.countP fun c => decide (PeerMembers.ofClass cat s c).HasMember) ∧
    ∀ updates, let later := cat.after updates
      (∀ now t, (Strategy.peering index).accepts later now t =
        (Strategy.custom (.lookingUp cat s)).accepts later now t) ∧
      (∀ (k : Converter) c d, k.emissionOf later (.peering index) c d =
        k.emissionOf later (.custom (.lookingUp cat s)) c d) ∧
      (∀ call w, Call.write (builtIn cat s) later w call = Call.write (unindexed cat s) later w call) ∧
      ∀ c ∈ later.entries, c ∉ cat.entries → index.find? c.id = none := by
  have h := hcat.indexed
  have hnone : ∀ id, ¬cat.Declares id → (PeerIndex.ofCatalog cat s).find? id = none := by
    intro id hid
    rw [find?_eq_filter h, Option.filter_eq_none_iff]
    intro p hp
    obtain ⟨c, hc, -⟩ := Option.map_eq_some_iff.mp hp
    exact absurd ⟨c, h.find?_eq_some.mp hc⟩ hid
  refine ⟨⟨fun c hc => ?_, hnone, size_ofCatalog cat s⟩, fun updates => ⟨Strategy.accepts_lookingUp h s _,
    fun k c d => emissionOf_lookingUp h s rfl _ c d, (alike_unindexed h s _).write_eq, fun c hc hnew => hnone _ ?_⟩⟩
  · rw [find?_eq_filter h, h.find?_eq_some.mpr ⟨hc, rfl⟩, Option.map_some, Option.filter_some]
    simp only [decide_eq_true_eq]
  · -- The two classes of one fingerprint would both be declared later.
    rintro ⟨d, hd, hid⟩
    have hlater := hcat.entries_after updates
    have hd' : d ∈ (cat.after updates).entries :=
      Array.mem_toList_iff.mp (hlater.subset (Array.mem_toList_iff.mpr hd))
    rw [(hcat.after updates).indexed.eq_of_id hd' hc hid] at hd
    exact hnew hd

/-! The index of the gauges, before the type of the gauge's own field is known. -/

-- Stated together, so that the catalogs are evaluated once.
theorem gauges_declared :
    let later := gauges.after [.declare gaugeHandle, .declare panel]
    gauges.find? gauge.id = some gauge ∧ gauges.contains panel.id = false ∧ later.find? panel.id = some panel := by
  decide +kernel

/-- A later look-up finds the gauge's own field, and the index still has the one of the widget above. -/
theorem PeerIndex.ofCatalog_agrees_gauges :
    let index := PeerIndex.ofCatalog gauges {}
    let later := gauges.after [.declare gaugeHandle, .declare panel]
    gauges.Reachable ∧ gauge ∈ gauges.entries ∧
      (∃ p, index.find? gauge.id = some p ∧ p.peerField = some ⟨widget.name, "jsoPeer"⟩) ∧
      (PeerMembers.ofClass later {} gauge).peerField = some ⟨gauge.name, "jsoPeer"⟩ ∧
      (Strategy.custom (.lookingUp gauges {})).accepts later {} gauge.type = true ∧
      panel ∈ later.entries ∧ index.find? panel.id = none := by
  dsimp only
  obtain ⟨⟨-, -, hfield⟩, -, hlater⟩ := gauges_evaluated
  obtain ⟨hgauge, hpanel, hpanelLater⟩ := gauges_declared
  have hcat : gauges.Reachable := Catalog.Reachable.runtime.declareAll _
  obtain ⟨⟨hfound, -, -⟩, hafter⟩ := PeerIndex.ofCatalog_agrees hcat {}
  obtain ⟨haccepts, -, -, hnew⟩ := hafter [.declare gaugeHandle, .declare panel]
  have hmem : gauge ∈ gauges.entries := (hcat.indexed.find?_eq_some.mp hgauge).1
  have hmem' := ((hcat.after _).indexed.find?_eq_some.mp hpanelLater).1
  have hmember : (PeerMembers.ofClass gauges {} gauge).HasMember := by
    refine Or.inr (Or.inl ?_)
    rw [hfield]
    exact Option.some_ne_none _
  have hindex := (hfound gauge hmem).trans (if_pos hmember)
  refine ⟨hcat, hmem, ⟨_, hindex, hfield⟩, hlater, ?_, hmem', hnew panel hmem' fun h => ?_⟩
  · rw [← haccepts]
    exact (congrArg Option.isSome hindex).trans rfl
  · rw [hcat.indexed.contains_iff.mpr ⟨panel, h, rfl⟩] at hpanel
    cases hpanel

end Marshal
