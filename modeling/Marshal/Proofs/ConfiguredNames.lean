import Marshal.Proofs.Callables
import Marshal.Proofs.Designations
import Marshal.Proofs.Names

/-! # Names of types in the settings

The settings name the type of strings and the callable marker by texts. What can be assigned is decided by the names
that these texts are read as. But strings are recognized by the text itself, which is compared with the source form of
a name; and the marker is recognized by the fingerprint of the text itself. So both are recognized where the text is
the source form of the name that it is read as: where it has no empty segments. -/

namespace Marshal

/-! ### Texts that are source forms -/

namespace TypeName
variable {source : String}

/-- The text is empty, or it has no empty segments. -/
def IsSource (source : String) : Prop := source = "" ∨ ∀ g ∈ segments source, g ≠ ""

theorem source_parse_eq_self_iff : (parse source).source = source ↔ IsSource source := by
  rw [source_parse]
  constructor
  · intro hsource
    by_cases hne : parts source = []
    · rw [hne] at hsource
      exact Or.inl hsource.symm
    · have hsegments : segments source = parts source := by
        rw [← segments_intercalate (whole_parts source).dotless hne, hsource]
      exact Or.inr (hsegments ▸ (whole_parts source).nonempty)
  · rintro (rfl | hsegments)
    · decide +kernel
    · exact intercalate_parts hsegments

end TypeName

variable {cat₀ cat : Catalog} {s : Settings} {c : Conversion} {decl : ClassDecl} {m : Method} {t p : HostType}
  {name type source : String}

theorem Strategy.identity_accepts_named_iff : identity.accepts cat s (.named source) = true ↔
    (TypeName.parse source).source = s.types.string ∨ cat.assignable (.named source) s.handleType = true := by
  have haccepts : identity.accepts cat s (.named source) =
      ((TypeName.parse source).source == s.types.string || cat.assignable (.named source) s.handleType) := rfl
  rw [haccepts, Bool.or_eq_true, beq_iff_eq]

/-! ### Conversions that do not report the marker

Only the test for the marker itself reports it. It is made on the way to the runtime, and all that is converted inside
a callable comes from there. -/

theorem exportedMethod_ne_bareMarker : exportedMethod s decl ≠ .error (.bareMarker type) := by
  obtain ⟨k, hk⟩ := ExportCase.exists_applies s decl
  rw [hk.exportedMethod_eq]
  cases k <;> simp [ExportCase.outcome]

theorem Strategy.emitPeer_ne_bareMarker (k : Converter) (index : PeerIndex) (d : Direction) :
    (emitPeer k cat index c d).result ≠ .error (.bareMarker type) := by
  have hmissing (convention : Convention) (member : String) :
      (emitPeer.missing c convention member).result ≠ .error (.bareMarker type) := by
    rintro ⟨⟩
  cases d with
  | toRuntime =>
    rw [emitPeer]
    split
    · rintro ⟨⟩
    · exact hmissing _ _
  | fromRuntime =>
    rw [emitPeer]
    split
    · split
      · rintro ⟨⟩
      · exact hmissing _ _
    · exact hmissing _ _
  | extractor =>
    rw [emitPeer]
    split
    · rintro ⟨⟩
    · exact hmissing _ _

namespace Converter
open Marshal.TypeName

theorem select_ne_bareMarker : (builtIn cat₀ s).select cat t ≠ .error (.bareMarker type) := by
  intro h
  cases (select_builtIn_error h).1

theorem fromRuntime_ne_bareMarker :
    ((builtIn cat₀ s).emission cat c .fromRuntime).result ≠ .error (.bareMarker type) := by
  cases hselect : (builtIn cat₀ s).select cat c.type with
  | error x =>
    rw [emission_of_select_error hselect]
    rintro ⟨⟩
    exact select_ne_bareMarker hselect
  | ok st =>
    rw [emission_of_select hselect]
    cases st with
    | identity => rintro ⟨⟩
    | callable => rintro ⟨⟩
    | peering index => exact Strategy.emitPeer_ne_bareMarker _ _ _
    | custom cs => exact absurd hselect not_custom_of_select

theorem nest_ne_bareMarker :
    ((builtIn cat₀ s).nest cat c p name .fromRuntime).result ≠ .error (.bareMarker type) := by
  rw [result_nest, Conversion.nested]
  split
  · rintro ⟨⟩
  · exact fromRuntime_ne_bareMarker

theorem function_ne_bareMarker :
    (RuntimeFunction.function (builtIn cat₀ s) cat ((builtIn cat₀ s).nest cat c) name decl m).result ≠
      .error (.bareMarker type) := by
  intro h
  rcases RuntimeFunction.error_of_function h with hdirect | ⟨-, harguments⟩
  · rcases RuntimeFunction.isDirect_eq_error hdirect with hreturns | ⟨-, -, p, -, -, -, hp⟩
    · exact select_ne_bareMarker hreturns
    · exact select_ne_bareMarker hp
  · have hfirst := (result_arguments_nest c name).symm.trans harguments
    obtain ⟨-, p, -, -, -, hp⟩ := Traversal.first_of_forM_error hfirst
    exact nest_ne_bareMarker hp

/-! ### The marker -/

/-- A conversion to the runtime reports the marker exactly where a callable is declared under the fingerprint of the
    text that names the marker. -/
theorem answers_bareMarker_iff (h : cat.Indexed) :
    (builtIn cat₀ s).Answers cat .toRuntime t name (.error (.bareMarker type)) ↔
      (builtIn cat₀ s).select cat t = .ok .callable ∧ t.fingerprint = .ofName s.types.callable ∧
        ∃ decl, cat.declOf? t = some decl ∧ decl.name.source = type := by
  rw [answers_iff]
  constructor
  · intro hmarker
    cases hselect : (builtIn cat₀ s).select cat t with
    | error x =>
      rw [emission_of_select_error hselect] at hmarker
      cases hmarker
      exact absurd hselect select_ne_bareMarker
    | ok st =>
      cases st with
      | identity =>
        rw [emission_of_select hselect] at hmarker
        cases hmarker
      | peering index =>
        rw [emission_of_select hselect] at hmarker
        exact absurd hmarker (Strategy.emitPeer_ne_bareMarker _ _ _)
      | custom cs => exact absurd hselect not_custom_of_select
      | callable =>
        cases hdecl : cat.declOf? t with
        | none =>
          rw [emission_of_select hselect, emissionOf_callable, Strategy.emitCallable_of_unknown hdecl] at hmarker
          cases hmarker
        | some decl =>
          by_cases hid : decl.id = .ofName s.types.callable
          · rw [emission_of_select hselect, emissionOf_callable,
              Strategy.emitCallable_of_marker (k := builtIn cat₀ s) hdecl hid] at hmarker
            cases hmarker
            exact ⟨rfl, (h.id_of_declOf? hdecl).symm.trans hid, decl, rfl, rfl⟩
          · cases hm : exportedMethod s decl with
            | error x =>
              rw [emission_of_select hselect, emissionOf_callable,
                Strategy.emitCallable_of_noMethod (k := builtIn cat₀ s) hdecl hid hm] at hmarker
              cases hmarker
              exact absurd hm exportedMethod_ne_bareMarker
            | ok m =>
              rw [result_toRuntime hselect hdecl hid hm] at hmarker
              exact absurd hmarker function_ne_bareMarker
  · rintro ⟨hselect, hmarker, decl, hdecl, rfl⟩
    have hid : decl.id = .ofName s.types.callable := (h.id_of_declOf? hdecl).trans hmarker
    rw [emission_of_select hselect, emissionOf_callable,
      Strategy.emitCallable_of_marker (k := builtIn cat₀ s) hdecl hid]
    rfl

theorem fingerprint_callableType (hsource : IsSource s.types.callable) :
    s.callableType.fingerprint = .ofName s.types.callable := by
  show Fingerprint.ofName (parse s.types.callable).source = _
  rw [source_parse_eq_self_iff.mpr hsource]

/-- The type of strings that the settings name needs no conversion exactly if their text for it is a source form, or
    the type is a runtime object. The callables that are reported to be the marker are those that are declared under
    the fingerprint of the text for it. The marker that the settings name is among them if this text is a source
    form. -/
theorem configured_names_read (hcat : cat.Reachable) (cat₀ : Catalog) (s : Settings) :
    (Strategy.identity.accepts cat s (.named s.types.string) = true ↔
      IsSource s.types.string ∨ cat.assignable (.named s.types.string) s.handleType = true) ∧
    (∀ t name type, (builtIn cat₀ s).Answers cat .toRuntime t name (.error (.bareMarker type)) ↔
      (builtIn cat₀ s).select cat t = .ok .callable ∧ t.fingerprint = .ofName s.types.callable ∧
        ∃ decl, cat.declOf? t = some decl ∧ decl.name.source = type) ∧
    (IsSource s.types.callable → ∀ decl, cat.declOf? s.callableType = some decl →
      (builtIn cat₀ s).select cat s.callableType = .ok .callable →
        ∀ name,
          (builtIn cat₀ s).Answers cat .toRuntime s.callableType name (.error (.bareMarker decl.name.source))) := by
  refine ⟨?_, fun t name type => answers_bareMarker_iff hcat.indexed, fun hsource decl hdecl hselect name => ?_⟩
  · rw [Strategy.identity_accepts_named_iff, source_parse_eq_self_iff]
  · exact (answers_bareMarker_iff hcat.indexed).mpr ⟨hselect, fingerprint_callableType hsource, decl, hdecl, rfl⟩

/-! A marker that could be converted if it were a callable like others, named by its source form and by a text that is
read as the same name. -/

def marker : ClassDecl :=
  { ClassDecl.interfaceNamed "demo.Marker" with methods := [{ name := "run", modifiers := { isStatic := true } }] }

def marking : Catalog := (Catalog.runtime.declareAll [marker]).1

def namedPlainly : Settings := { types := { callable := "demo.Marker" } }

def namedWithGaps : Settings := { types := { callable := "demo..Marker", string := "java.lang..String" } }

-- Stated together, so that the catalog is evaluated once.
theorem marking_evaluated :
    (∀ s ∈ [namedPlainly, namedWithGaps], Strategy.isPlain marking s s.callableType = false ∧
      Conversion.isCallable marking s s.callableType = true ∧ marking.declOf? s.callableType = some marker) ∧
    segments namedPlainly.types.callable = ["demo", "Marker"] ∧
    segments namedPlainly.types.string = ["java", "lang", "String"] ∧
    Strategy.identity.accepts marking namedWithGaps (.named namedWithGaps.types.string) = false ∧
    namedWithGaps.callableType.fingerprint ≠ .ofName namedWithGaps.types.callable := by
  decide +kernel

theorem reachable_marking : marking.Reachable := Catalog.Reachable.runtime.declareAll _

theorem select_marking (hs : s ∈ [namedPlainly, namedWithGaps]) :
    (builtIn marking s).select marking s.callableType = .ok .callable := by
  obtain ⟨hplain, hcallable, -⟩ := marking_evaluated.1 s hs
  rw [select_builtIn, hplain, hcallable]
  rfl

/-- Neither the type of strings nor the marker is always recognized under the name that the settings have for it. -/
theorem configured_names_not_recognized :
    (¬∀ (cat : Catalog) (s : Settings), cat.Reachable →
      Strategy.identity.accepts cat s (.named s.types.string) = true) ∧
    ¬∀ (cat : Catalog) (s : Settings) (decl : ClassDecl), cat.Reachable → cat.declOf? s.callableType = some decl →
      (builtIn cat s).select cat s.callableType = .ok .callable →
        ∀ name, ∃ type, (builtIn cat s).Answers cat .toRuntime s.callableType name (.error (.bareMarker type)) := by
  obtain ⟨hmarker, -, -, hstring, hfingerprint⟩ := marking_evaluated
  constructor
  · intro h
    exact Bool.false_ne_true (hstring.symm.trans (h marking namedWithGaps reachable_marking))
  · intro h
    have hmem : namedWithGaps ∈ [namedPlainly, namedWithGaps] := by simp
    obtain ⟨type, htype⟩ :=
      h marking namedWithGaps marker reachable_marking (hmarker _ hmem).2.2 (select_marking hmem) "v"
    exact hfingerprint ((answers_bareMarker_iff reachable_marking.indexed).mp htype).2.1

/-- By its source form, the marker is recognized, and so is the type of strings. -/
theorem configured_names_read_marking :
    marking.Reachable ∧ Strategy.identity.accepts marking namedPlainly (.named namedPlainly.types.string) = true ∧
      (builtIn marking namedPlainly).Answers marking .toRuntime namedPlainly.callableType "v"
        (.error (.bareMarker marker.name.source)) := by
  obtain ⟨hmarker, hmarkerSegments, hstringSegments, -⟩ := marking_evaluated
  obtain ⟨hstring, -, hrecognized⟩ := configured_names_read reachable_marking marking namedPlainly
  have hmem : namedPlainly ∈ [namedPlainly, namedWithGaps] := by simp
  have hsource : IsSource namedPlainly.types.callable := Or.inr (by simp [hmarkerSegments])
  have hstringSource : IsSource namedPlainly.types.string := Or.inr (by simp [hstringSegments])
  exact ⟨reachable_marking, hstring.mpr (Or.inl hstringSource),
    hrecognized hsource marker (hmarker _ hmem).2.2 (select_marking hmem) "v"⟩

end Converter

end Marshal
