import Marshal.Proofs.Exporting
import Marshal.Script

/-! # Appended strategies

Of several strategies that accept a type the first converts it, so a type that was accepted before strategies were
appended is converted as before. A type that was not accepted made the built-in strategies fail for want of a strategy,
and so did everything that it is a part of, because they pass the failures of parts on. What did not fail in this way
has met no such type, neither in a part nor in the test whether a method can be used as it is, and stays the same. -/

namespace Marshal

/-! ### Emissions -/

namespace Emission
variable {α β : Type}

/-- The other emission is the same, unless this one fails for want of a strategy. -/
def KeptBy (e e' : Emission α) : Prop := (∀ t, e.result ≠ .error (.unresolvable t)) → e' = e

theorem KeptBy.refl (e : Emission α) : e.KeptBy e := fun _ => rfl

/-- If the first part is kept, and what comes after it wherever it succeeds, then so is the whole. -/
theorem KeptBy.bind {e e' : Emission α} {f f' : α → Emission β} (he : e.KeptBy e')
    (hf : ∀ a, e.result = .ok a → (f a).KeptBy (f' a)) : (e >>= f).KeptBy (e' >>= f') := by
  intro hne
  have hfirst : ∀ t, e.result ≠ .error (.unresolvable t) := by
    intro t ht
    refine hne t ?_
    rw [result_bind, ht]
    rfl
  rw [he hfirst]
  obtain ⟨steps, result⟩ := e
  cases result with
  | error x => rfl
  | ok a =>
    have hnext := hf a rfl hne
    show (⟨steps ++ (f' a).steps, (f' a).result⟩ : Emission β) = ⟨steps ++ (f a).steps, (f a).result⟩
    rw [hnext]

theorem KeptBy.after {f f' : α → Emission β} (e : Emission α) (hf : ∀ a, (f a).KeptBy (f' a)) :
    (e >>= f).KeptBy (e >>= f') :=
  (KeptBy.refl e).bind fun a _ => hf a

theorem ofExcept_bind (r : Except ConversionError α) (f : α → Except ConversionError β) :
    ofExcept (r >>= f) = (ofExcept r >>= fun a => ofExcept (f a)) := by
  cases r <;> rfl

end Emission

open Emission

/-! ### One strategy -/

def Nesting.KeptBy (nest nest' : Nesting) : Prop := ∀ t name d, (nest t name d).KeptBy (nest' t name d)

variable {k : Converter} {cat : Catalog} {nest nest' : Nesting}

namespace Converter

theorem keptBy_select (k : Converter) (more : List Strategy) (cat : Catalog) (t : HostType) :
    (ofExcept (k.select cat t)).KeptBy (ofExcept ((k.append more).select cat t)) := by
  intro hne
  have hne : ∀ u, k.select cat t ≠ .error (.unresolvable u) := hne
  refine congrArg ofExcept ?_
  unfold select append
  unfold select at hne
  rw [List.find?_append]
  cases hfind : k.strategies.find? (·.accepts cat k.settings t) with
  | some s => rfl
  | none =>
    rw [hfind] at hne
    exact absurd rfl (hne _)

end Converter

namespace RuntimeFunction
variable (more : List Strategy)

/-- Types after the first that needs a conversion are looked at neither before nor after. -/
theorem keptBy_allIdentity (types : List HostType) :
    (ofExcept (allIdentity k cat types)).KeptBy (ofExcept (allIdentity (k.append more) cat types)) := by
  induction types with
  | nil => exact .refl _
  | cons t rest ih =>
    rw [allIdentity, allIdentity, ofExcept_bind, ofExcept_bind]
    refine (k.keptBy_select more cat t).bind fun s _ => ?_
    cases s.isIdentity with
    | true => exact ih
    | false => exact .refl _

theorem keptBy_isDirect (m : Method) :
    (ofExcept (isDirect k cat m)).KeptBy (ofExcept (isDirect (k.append more) cat m)) := by
  rw [isDirect, isDirect, ofExcept_bind, ofExcept_bind]
  refine (k.keptBy_select more cat m.returns).bind fun s _ => ?_
  cases m.isStatic && s.isIdentity with
  | true => exact keptBy_allIdentity more m.paramTypes
  | false => exact .refl _

variable (hn : nest.KeptBy nest')
include hn

theorem keptBy_arguments (args : List (HostType × String)) : (arguments nest args).KeptBy (arguments nest' args) := by
  fun_induction arguments nest args with
  | case1 => exact .refl _
  | case2 t name => exact hn t name .fromRuntime
  | case3 t name more hmore ih =>
    rw [arguments]
    · exact (hn t name .fromRuntime).bind fun _ _ => .after _ fun _ => ih
    · exact hmore

theorem keptBy_wrapper (s : Settings) (receiver : String) (owner : ClassDecl) (m : Method) :
    (wrapper s nest receiver owner m).KeptBy (wrapper s nest' receiver owner m) := by
  intro hne
  rw [result_wrapper] at hne
  rw [wrapper, wrapper, keptBy_arguments hn _ hne]

theorem keptBy_function (receiver : String) (owner : ClassDecl) (m : Method) :
    (function k cat nest receiver owner m).KeptBy (function (k.append more) cat nest' receiver owner m) := by
  refine (keptBy_isDirect more m).bind fun direct _ => ?_
  cases direct with
  | true => exact .refl _
  | false => exact keptBy_wrapper hn _ _ _ _

end RuntimeFunction

namespace Strategy
variable (more : List Strategy)

theorem keptBy_emitCallable (hn : nest.KeptBy nest') (c : Conversion) (d : Direction) :
    (emitCallable k cat nest c d).KeptBy (emitCallable (k.append more) cat nest' c d) := by
  cases d with
  | fromRuntime => exact .refl _
  | extractor => exact .refl _
  | toRuntime =>
    cases hdecl : cat.declOf? c.type with
    | none =>
      rw [emitCallable_of_unknown hdecl, emitCallable_of_unknown hdecl]
      exact .refl _
    | some decl =>
      by_cases hid : decl.id = .ofName k.settings.types.callable
      · rw [emitCallable_of_marker hdecl hid, emitCallable_of_marker (k := k.append more) hdecl hid]
        exact .refl _
      · cases hm : exportedMethod k.settings decl with
        | error x =>
          rw [emitCallable_of_noMethod hdecl hid hm, emitCallable_of_noMethod (k := k.append more) hdecl hid hm]
          exact .refl _
        | ok m =>
          rw [emitCallable_of_method hdecl hid hm, emitCallable_of_method (k := k.append more) hdecl hid hm]
          refine .after _ fun _ => ?_
          exact (RuntimeFunction.keptBy_function more hn c.name decl m).bind fun _ _ => .refl _

theorem emitPeer_append (index : PeerIndex) (c : Conversion) (d : Direction) :
    emitPeer (k.append more) cat index c d = emitPeer k cat index c d := by
  cases d <;> rfl

end Strategy

/-! ### Conversions -/

namespace Converter

section
variable (more : List Strategy) (hk : ∀ custom, .custom custom ∉ k.strategies)
include hk

theorem keptBy_emission_of_nest {c : Conversion} (hn : (k.nest cat c).KeptBy ((k.append more).nest cat c))
    (d : Direction) : (k.emission cat c d).KeptBy ((k.append more).emission cat c d) := by
  rw [emission_eq, emission_eq]
  refine (k.keptBy_select more cat c.type).bind fun s hs => ?_
  cases s with
  | identity =>
    rw [emissionOf_identity, emissionOf_identity]
    exact .refl _
  | callable =>
    rw [emissionOf_callable, emissionOf_callable]
    exact Strategy.keptBy_emitCallable more hn c d
  | peering index =>
    rw [emissionOf_peering, emissionOf_peering, Strategy.emitPeer_append]
    exact .refl _
  | custom custom => exact absurd (mem_of_select hs) (hk custom)

theorem keptBy_nest (c : Conversion) : (k.nest cat c).KeptBy ((k.append more).nest cat c) := by
  -- By induction on the number of conversions that may still be nested.
  intro t name d
  refine (KeptBy.refl (ofExcept (c.nested cat k.settings t name))).bind fun inner hinner => ?_
  have hinner : c.nested cat k.settings t name = .ok inner := hinner
  have hdepth := Conversion.depth_of_nested hinner
  have hlt := Conversion.depth_lt_of_nested hinner
  exact keptBy_emission_of_nest more hk (keptBy_nest inner) d
termination_by k.settings.maxDepth - c.depth

theorem keptBy_emission (c : Conversion) (d : Direction) :
    (k.emission cat c d).KeptBy ((k.append more).emission cat c d) :=
  keptBy_emission_of_nest more hk (keptBy_nest more hk c) d

/-! ### Statements -/

theorem keptBy_exportStatements (host : Conversion) (target : String) (es : List Export) :
    (k.exportStatements cat host target es).KeptBy ((k.append more).exportStatements cat host target es) := by
  induction es with
  | nil => exact .refl _
  | cons e rest ih =>
    exact .after _ fun _ => (RuntimeFunction.keptBy_function more (keptBy_nest more hk host) _ _ _).bind fun _ _ =>
      .after _ fun _ => ih

theorem Call.keptBy_emission (call : Call) : (call.emission k cat).KeptBy (call.emission (k.append more) cat) := by
  cases call with
  | convert d t name => exact Converter.keptBy_emission more hk _ d
  | exports c target receiver => exact keptBy_exportStatements more hk _ target _
  | binding c target receiver => exact .after _ fun _ => keptBy_exportStatements more hk _ target _
  | construction c m => exact .refl _

end

/-- Strategies that are appended to the built-in ones, whatever they accept and write, change no text that was given and
    no failure but the want of a strategy. In the same way they leave every call that writes to a writer its answer and
    all that it writes. -/
theorem append_keeps_answers (cat₀ cat : Catalog) (s : Settings) (more : List Strategy) :
    (∀ d t name, (∀ u, (builtIn cat₀ s).convertToText cat d t name ≠ .error (.unresolvable u)) →
      ((builtIn cat₀ s).append more).convertToText cat d t name = (builtIn cat₀ s).convertToText cat d t name) ∧
    ∀ (call : Call) w answer w', call.write (builtIn cat₀ s) cat w = some (answer, w') →
      (∀ u, answer ≠ .error (.unresolvable u)) →
      call.write ((builtIn cat₀ s).append more) cat w = some (answer, w') := by
  have hk : ∀ custom, .custom custom ∉ (builtIn cat₀ s).strategies := by simp [builtIn]
  refine ⟨fun d t name hne => ?_, fun call w answer w' hwrite hne => ?_⟩
  · unfold convertToText at hne ⊢
    rw [keptBy_emission more hk ⟨t, name, []⟩ d fun u hu => hne u (by rw [toText, hu]; rfl)]
    rfl
  · rw [Call.answer_eq hwrite] at hne
    rw [← hwrite, Call.write_eq, Call.write_eq, Call.keptBy_emission more hk call hne]

/-- Accepts every type, as the same on both sides. -/
def catchAll : Script where
  name := "catchAll"
  accepts := .all
  isIdentity := true
  toRuntime := [.text "any(", .name, .text ")"]
  fromRuntime := [.text "any(", .name, .text ")"]

-- Stated together, so that the catalog is evaluated once.
theorem catchAll_evaluated :
    (builtIn listening {}).convertToText listening .toRuntime (.named "demo.Loop") "f" =
      .error (.recursive "demo.Loop" 1) ∧
    ((builtIn family {}).append [catchAll.strategy]).convertToText family .toRuntime (.array (.primitive .int)) "a" =
      .ok "any(a)" := by
  decide +kernel

/-- A strategy that accepts everything converts arrays, but a callable that comes back to itself fails as before, and a
    class is exported as before. -/
theorem append_keeps_answers_catchAll :
    ((builtIn listening {}).append [catchAll.strategy]).convertToText listening .toRuntime (.named "demo.Loop") "f" =
      .error (.recursive "demo.Loop" 1) ∧
    ((builtIn family {}).append [catchAll.strategy]).convertToText family .toRuntime (.array (.primitive .int)) "a" =
      .ok "any(a)" ∧
    ∃ w', Call.write (builtIn family {}) family {} (.exports childClass "jso" "obj") = some (.ok (), w') ∧
      Call.write ((builtIn family {}).append [catchAll.strategy]) family {} (.exports childClass "jso" "obj") =
        some (.ok (), w') := by
  obtain ⟨hloop, harray⟩ := catchAll_evaluated
  obtain ⟨-, -, hexports, -⟩ := family_evaluated
  obtain ⟨htext, -⟩ := append_keeps_answers listening listening {} [catchAll.strategy]
  obtain ⟨-, hwrite⟩ := append_keeps_answers family family {} [catchAll.strategy]
  obtain ⟨w', hw'⟩ := (Call.answers_iff (.exports childClass "jso" "obj")).mpr hexports {}
  refine ⟨?_, harray, w', hw', hwrite _ {} _ w' hw' fun u hu => (nomatch hu)⟩
  rw [htext .toRuntime (.named "demo.Loop") "f" fun u hu => ?_, hloop]
  rw [hloop] at hu
  cases hu

end Converter

end Marshal
