import Marshal.Proofs.BuiltIns
import Marshal.Proofs.Transactions

/-! # Converters that write the same

Two converters, each with a catalog, agree step by step if they agree on each conversion whose parts they convert in the
same way. Parts have fewer levels left than what they are parts of, so that converters that agree step by step agree on
every conversion, and then on every call. -/

namespace Marshal

/-! ### Identities -/

namespace RuntimeFunction
variable {k k' : Converter} {cat cat' : Catalog}
  (h : ∀ t, (k.select cat t).map (·.isIdentity) = (k'.select cat' t).map (·.isIdentity))
include h

/-- Of the strategies it only matters whether there is one and whether it is an identity. -/
theorem allIdentity_congr (types : List HostType) : allIdentity k cat types = allIdentity k' cat' types := by
  induction types with
  | nil => rfl
  | cons t rest ih =>
    have hcons (k : Converter) (cat : Catalog) : allIdentity k cat (t :: rest) =
        ((k.select cat t).map (·.isIdentity)).bind fun identity =>
          if identity then allIdentity k cat rest else .ok false := by
      rw [allIdentity]
      cases k.select cat t <;> rfl
    rw [hcons, hcons, h, ih]

theorem isDirect_congr (m : Method) : isDirect k cat m = isDirect k' cat' m := by
  have hdirect (k : Converter) (cat : Catalog) : isDirect k cat m =
      ((k.select cat m.returns).map (·.isIdentity)).bind fun identity =>
        if m.isStatic && identity then allIdentity k cat m.paramTypes else .ok false := by
    rw [isDirect]
    cases k.select cat m.returns <;> rfl
  rw [hdirect, hdirect, h, allIdentity_congr h]

theorem function_congr (hs : k.settings = k'.settings) (nest : Nesting) (receiver : String) (owner : ClassDecl)
    (m : Method) : function k cat nest receiver owner m = function k' cat' nest receiver owner m := by
  rw [function, function, isDirect_congr h, hs]

end RuntimeFunction

theorem Strategy.emitCallable_congr {k k' : Converter} {cat cat' : Catalog}
    (hdecl : ∀ t, cat.declOf? t = cat'.declOf? t)
    (h : ∀ t, (k.select cat t).map (·.isIdentity) = (k'.select cat' t).map (·.isIdentity))
    (hs : k.settings = k'.settings) (nest : Nesting) (c : Conversion) (d : Direction) :
    emitCallable k cat nest c d = emitCallable k' cat' nest c d := by
  cases d with
  | toRuntime => simp only [emitCallable, hdecl, hs, RuntimeFunction.function_congr h hs]
  | fromRuntime => rfl
  | extractor => rfl

namespace Converter

/-- The two converters see the same lineages, nest conversions alike, and write the same for a value whose parts they
    convert in the same way. -/
structure Alike (k k' : Converter) (cat cat' : Catalog) : Prop where
  settings : k.settings = k'.settings
  lineage : ∀ c, cat.lineage c = cat'.lineage c
  nested : ∀ (c : Conversion) t name, c.nested cat k.settings t name = c.nested cat' k'.settings t name
  identities : ∀ t, (k.select cat t).map (·.isIdentity) = (k'.select cat' t).map (·.isIdentity)
  emission : ∀ (c : Conversion) d, k.nest cat c = k'.nest cat' c → k.emission cat c d = k'.emission cat' c d

namespace Alike
variable {k k' : Converter} {cat cat' : Catalog} (h : k.Alike k' cat cat')
include h

theorem nest_eq (c : Conversion) : k.nest cat c = k'.nest cat' c := by
  -- By induction on the number of conversions that may still be nested.
  funext t name d
  rw [nest, nest, h.nested]
  cases hc : c.nested cat' k'.settings t name with
  | error x => simp only [Emission.ofExcept_error_bind]
  | ok inner =>
    have hdepth := Conversion.depth_of_nested hc
    have hlt := Conversion.depth_lt_of_nested hc
    simp only [Emission.ofExcept_ok_bind]
    exact h.emission inner d (nest_eq inner)
termination_by k'.settings.maxDepth - c.depth

theorem emission_eq (c : Conversion) (d : Direction) : k.emission cat c d = k'.emission cat' c d :=
  h.emission c d (h.nest_eq c)

theorem exportStatements_eq (host : Conversion) (target : String) (es : List Export) :
    k.exportStatements cat host target es = k'.exportStatements cat' host target es := by
  induction es with
  | nil => rfl
  | cons e rest ih =>
    rw [exportStatements, exportStatements, h.nest_eq, RuntimeFunction.function_congr h.identities h.settings, ih]

theorem exports_eq (c : ClassDecl) (target receiver : String) :
    k.exports cat c target receiver = k'.exports cat' c target receiver := by
  rw [exports, exports, h.exportStatements_eq, h.settings, Export.all, Export.all, h.lineage]

theorem callEmission_eq (call : Call) : call.emission k cat = call.emission k' cat' := by
  cases call with
  | convert d t name => exact h.emission_eq _ d
  | exports c target receiver => exact h.exports_eq c target receiver
  | binding c target receiver =>
    show k.binding cat c target receiver = k'.binding cat' c target receiver
    rw [binding, binding, h.exports_eq, h.settings]
  | construction c m =>
    show k.construction c m = k'.construction c m
    rw [construction, construction, constructorExpr?, constructorExpr?, h.settings]

theorem write_eq (call : Call) (w : Writer) : call.write k cat w = call.write k' cat' w := by
  rw [Call.write_eq, Call.write_eq, h.callEmission_eq]

end Alike

/-! ### Built-in strategies and a third one -/

section
variable {cat cat' : Catalog} (hassign : ∀ source target, cat.assignable source target = cat'.assignable source target)
  (s : Settings) (t : HostType)
include hassign

theorem isCallable_eq : Conversion.isCallable cat s t = Conversion.isCallable cat' s t := hassign _ _

theorem isPlain_eq : Strategy.isPlain cat s t = Strategy.isPlain cat' s t := by
  cases t with
  | primitive p => rfl
  | object c => simp only [Strategy.isPlain, hassign]
  | array e => rfl

theorem nested_eq (c : Conversion) (name : String) : c.nested cat s t name = c.nested cat' s t name := by
  simp only [Conversion.nested, Conversion.reenters, isCallable_eq hassign]
  rfl

end

/-- Between two catalogs that relate the same types, only the third strategies have to be compared. -/
theorem alike_of_third {cat cat' : Catalog} {s : Settings} {third third' : Strategy}
    (hlineage : ∀ c, cat.lineage c = cat'.lineage c)
    (hassign : ∀ source target, cat.assignable source target = cat'.assignable source target)
    (hdecl : ∀ t, cat.declOf? t = cat'.declOf? t)
    (haccepts : ∀ t, third.accepts cat s t = third'.accepts cat' s t) (hidentity : third.isIdentity = third'.isIdentity)
    (hthird : ∀ c d, emissionOf ⟨s, [.identity, .callable, third]⟩ cat third c d =
      emissionOf ⟨s, [.identity, .callable, third']⟩ cat' third' c d) :
    Alike ⟨s, [.identity, .callable, third]⟩ ⟨s, [.identity, .callable, third']⟩ cat cat' := by
  have hidentities : ∀ t, (select ⟨s, [.identity, .callable, third]⟩ cat t).map (·.isIdentity) =
      (select ⟨s, [.identity, .callable, third']⟩ cat' t).map (·.isIdentity) := by
    intro t
    rw [select_third, select_third, isPlain_eq hassign, isCallable_eq hassign, haccepts]
    split
    · rfl
    · split
      · rfl
      · split
        · exact congrArg Except.ok hidentity
        · rfl
  refine ⟨rfl, hlineage, fun c t name => nested_eq hassign s t c name, hidentities, fun c d hn => ?_⟩
  rw [emission_eq, emission_eq, select_third, select_third, isPlain_eq hassign, isCallable_eq hassign, haccepts]
  split
  · simp only [Emission.ofExcept_ok_bind, emissionOf_identity]
  · split
    · simp only [Emission.ofExcept_ok_bind, emissionOf_callable, hn]
      exact Strategy.emitCallable_congr hdecl hidentities rfl _ _ _
    · split
      · simp only [Emission.ofExcept_ok_bind, hthird]
      · simp only [Emission.ofExcept_error_bind]

end Converter

end Marshal
