import Marshal.Proofs.FunctionTexts
import Marshal.Proofs.Levels

/-! # Where functions are kept

The function of a callable is kept in a property of the value. The settings and the name of the value say which
property that is, the type does not. So a value that is converted as one callable and then as another gets the
function of the first, and it is the right one as long as both types refer to the same class. -/

namespace Marshal

/-- What an emission writes between two texts, if it comes back to the lowest level. -/
theorem Emission.text_between {f : Emission Unit} {before after unit text : String} (hf : f.Moves 0 0 0)
    (h : (Emission.print before >>= fun _ => f >>= fun _ => Emission.print after).toText unit = .ok text) :
    ∃ between, text = before ++ between ++ after := by
  obtain ⟨⟨⟩, hok, rfl⟩ := Traversal.map_eq_ok.mp h
  have hfok : f.result = .ok () := by
    rw [← hok]
    exact (result_bind_of_ok f rfl).symm
  obtain ⟨between, hbetween⟩ := (Writer.grown_run (Writer.print { unit := unit } before) f.steps).text
  have hlevel : (Writer.run (Writer.print { unit := unit } before) f.steps).level = 0 :=
    hf () hfok _ 0 (Nat.le_refl _) rfl
  refine ⟨between, ?_⟩
  rw [steps_bind rfl, steps_bind hfok, Writer.run_append, Writer.run_append]
  show ((Writer.run (Writer.print { unit := unit } before) f.steps).print after).text = _
  rw [Writer.text_print hlevel, hbetween, Writer.text_print rfl]
  exact congrArg (· ++ between ++ after) String.empty_append

/-- Inside a conversion, its type counts by its fingerprint alone. -/
theorem Conversion.nested_congr {cat : Catalog} {s : Settings} (c c' : Conversion)
    (hid : c.type.fingerprint = c'.type.fingerprint) (henclosing : c.enclosing = c'.enclosing) (t : HostType)
    (name : String) : c.nested cat s t name = c'.nested cat s t name := by
  unfold nested reenters depth
  rw [hid, henclosing]

namespace Converter
variable {cat₀ cat : Catalog} {s : Settings} {t t₁ t₂ : HostType} {name x x₁ x₂ : String}

theorem builtIn_keepsLevel (cat₀ cat : Catalog) (s : Settings) (floor : Nat) :
    (builtIn cat₀ s).CustomsKeepLevel cat floor := by
  intro custom hmem
  simp [builtIn] at hmem

/-- Whatever the function is, it is kept in the property for the name. -/
theorem cachedText_of_toRuntime (ht : (builtIn cat₀ s).select cat t = .ok .callable)
    (h : (builtIn cat₀ s).convertToText cat .toRuntime t name = .ok x) : ∃ fn, x = cachedText s name fn := by
  obtain ⟨decl, m, hdecl, hid, hm⟩ := method_of_toRuntime_ok ht (Emission.result_of_toText h)
  rw [convertToText, emission_toRuntime ht hdecl hid hm] at h
  exact Emission.text_between
    (RuntimeFunction.moves_function (nest_keepsLevel (builtIn_keepsLevel cat₀ cat s 0) _) name decl m) h

/-- A method that needs no conversion is kept as it is. -/
theorem convertToText_of_direct {decl : ClassDecl} {m : Method} (ht : (builtIn cat₀ s).select cat t = .ok .callable)
    (hdecl : cat.declOf? t = some decl) (hid : decl.id ≠ .ofName s.types.callable) (hm : exportedMethod s decl = .ok m)
    (hno : RuntimeFunction.NeedsNoConversion (builtIn cat₀ s) cat m) (name : String) :
    (builtIn cat₀ s).convertToText cat .toRuntime t name = .ok (cachedText s name (methodReference decl m)) := by
  refine (prints_toRuntime ht hdecl hid hm ?_).toText
  rw [RuntimeFunction.function_of_direct (RuntimeFunction.isDirect_iff.mpr hno)]
  exact Emission.prints_print _ _

theorem declOf?_congr (ht₁ : t₁.classRef?.isSome) (ht₂ : t₂.classRef?.isSome) (hid : t₁.fingerprint = t₂.fingerprint) :
    cat.declOf? t₁ = cat.declOf? t₂ := by
  cases t₁ with
  | primitive _ => cases ht₁
  | array _ => cases ht₁
  | object r₁ =>
    cases t₂ with
    | primitive _ => cases ht₂
    | array _ => cases ht₂
    | object r₂ => exact congrArg cat.find? hid

/-- References to the same class are converted to the same text. -/
theorem toRuntime_congr (ht₁ : (builtIn cat₀ s).select cat t₁ = .ok .callable)
    (ht₂ : (builtIn cat₀ s).select cat t₂ = .ok .callable) (hid : t₁.fingerprint = t₂.fingerprint)
    (h : (builtIn cat₀ s).convertToText cat .toRuntime t₁ name = .ok x) :
    (builtIn cat₀ s).convertToText cat .toRuntime t₂ name = .ok x := by
  obtain ⟨decl, m, hdecl, hmarker, hm⟩ := method_of_toRuntime_ok ht₁ (Emission.result_of_toText h)
  have hdecl₂ := hdecl
  rw [declOf?_congr (select_builtIn_callable ht₁).2.1 (select_builtIn_callable ht₂).2.1 hid] at hdecl₂
  have hnest : (builtIn cat₀ s).nest cat ⟨t₁, name, []⟩ = (builtIn cat₀ s).nest cat ⟨t₂, name, []⟩ := by
    funext t argument d
    exact congrArg (fun inner => Emission.ofExcept inner >>= fun inner => (builtIn cat₀ s).emission cat inner d)
      (Conversion.nested_congr ⟨t₁, name, []⟩ ⟨t₂, name, []⟩ hid rfl t argument)
  rw [convertToText, emission_toRuntime ht₁ hdecl hmarker hm, hnest] at h
  rw [convertToText, emission_toRuntime ht₂ hdecl₂ hmarker hm]
  exact h

/-- Two conversions of a value to callables test and set the same property, whatever functions they would keep
    there. If the types refer to the same class, the functions are the same too. -/
theorem cached_function (ht₁ : (builtIn cat₀ s).select cat t₁ = .ok .callable)
    (ht₂ : (builtIn cat₀ s).select cat t₂ = .ok .callable)
    (h₁ : (builtIn cat₀ s).convertToText cat .toRuntime t₁ name = .ok x₁)
    (h₂ : (builtIn cat₀ s).convertToText cat .toRuntime t₂ name = .ok x₂) :
    ∃ f₁ f₂, x₁ = "(" ++ cacheSlot s name ++ " || (" ++ cacheSlot s name ++ " = " ++ f₁ ++ "))" ∧
      x₂ = "(" ++ cacheSlot s name ++ " || (" ++ cacheSlot s name ++ " = " ++ f₂ ++ "))" ∧
      (t₁.fingerprint = t₂.fingerprint → f₁ = f₂) := by
  obtain ⟨f₁, hx₁⟩ := cachedText_of_toRuntime ht₁ h₁
  obtain ⟨f₂, hx₂⟩ := cachedText_of_toRuntime ht₂ h₂
  refine ⟨f₁, f₂, hx₁, hx₂, fun hid => ?_⟩
  have hx : x₁ = x₂ := Except.ok.inj ((toRuntime_congr ht₁ ht₂ hid h₁).symm.trans h₂)
  rw [hx₁, hx₂] at hx
  exact (String.append_right_inj _).mp ((String.append_left_inj _).mp hx)

def staticNamed (name : String) : Method := { name, modifiers := { isStatic := true } }

def first : ClassDecl := callableWith "demo.First" (staticNamed "first")

def second : ClassDecl := callableWith "demo.Second" (staticNamed "second")

def both : ClassDecl := { ClassDecl.classNamed "demo.Both" with interfaces := [first.type, second.type] }

/-- A class that is two callables, each of which is its own function. -/
def doubling : Catalog := (Catalog.runtime.declareAll [first, second, both]).1

/-- The first callable by a name that is split in another way. -/
def firstAgain : HostType := .object ⟨first.id, ⟨"", "demo.First"⟩⟩

-- Stated together, so that the catalog is evaluated once.
theorem doubling_evaluated :
    (∀ t ∈ [first.type, second.type, firstAgain], Strategy.isPlain doubling {} t = false ∧
      Conversion.isCallable doubling {} t = true ∧ doubling.assignable both.type t = true) ∧
    (∀ c ∈ [first, second], doubling.declOf? c.type = some c ∧ c.id ≠ .ofName RuntimeType.callable) ∧
    both ∈ doubling.entries := by
  decide +kernel

theorem select_doubling {t : HostType} (ht : t ∈ [first.type, second.type, firstAgain]) :
    (builtIn doubling {}).select doubling t = .ok .callable := by
  obtain ⟨hplain, hcallable, -⟩ := doubling_evaluated.1 t ht
  have hclass : t.classRef?.isSome = true := by
    simp only [List.mem_cons, List.not_mem_nil, or_false] at ht
    rcases ht with rfl | rfl | rfl <;> rfl
  rw [select_builtIn, hplain, hcallable, hclass]
  rfl

theorem convert_doubling {c : ClassDecl} (hc : c ∈ [first, second]) {called : String}
    (hm : exportedMethod {} c = .ok (staticNamed called)) :
    (builtIn doubling {}).convertToText doubling .toRuntime c.type "v" =
      .ok (cachedText {} "v" (methodReference c (staticNamed called))) := by
  obtain ⟨hdecl, hid⟩ := doubling_evaluated.2.1 c hc
  have ht : c.type ∈ [first.type, second.type, firstAgain] := by
    simp only [List.mem_cons, List.not_mem_nil, or_false] at hc
    rcases hc with rfl | rfl <;> simp
  have hno : RuntimeFunction.NeedsNoConversion (builtIn doubling {}) doubling (staticNamed called) :=
    ⟨rfl, ⟨.identity, rfl, rfl⟩, fun _ hp => nomatch hp⟩
  exact convertToText_of_direct (select_doubling ht) hdecl hid hm hno "v"

/-- The function of one callable is not kept apart from that of another. -/
theorem functions_not_kept_apart :
    ¬∀ (cat : Catalog) (s : Settings) (t₁ t₂ : HostType) (c : ClassDecl) (name slot₁ slot₂ f₁ f₂ : String),
      cat.Reachable → (builtIn cat s).select cat t₁ = .ok .callable → (builtIn cat s).select cat t₂ = .ok .callable →
        c ∈ cat.entries → cat.assignable c.type t₁ = true → cat.assignable c.type t₂ = true →
        (builtIn cat s).convertToText cat .toRuntime t₁ name =
          .ok ("(" ++ slot₁ ++ " || (" ++ slot₁ ++ " = " ++ f₁ ++ "))") →
        (builtIn cat s).convertToText cat .toRuntime t₂ name =
          .ok ("(" ++ slot₂ ++ " || (" ++ slot₂ ++ " = " ++ f₂ ++ "))") →
        f₁ ≠ f₂ → slot₁ ≠ slot₂ := by
  intro h
  have hfirst : first.type ∈ [first.type, second.type, firstAgain] := by simp
  have hsecond : second.type ∈ [first.type, second.type, firstAgain] := by simp
  have hne : methodReference first (staticNamed "first") ≠ methodReference second (staticNamed "second") := by
    decide +kernel
  exact h doubling {} first.type second.type both "v" (cacheSlot {} "v") (cacheSlot {} "v") _ _
    (Catalog.Reachable.runtime.declareAll _) (select_doubling hfirst) (select_doubling hsecond)
    doubling_evaluated.2.2 (doubling_evaluated.1 _ hfirst).2.2 (doubling_evaluated.1 _ hsecond).2.2
    (convert_doubling (by simp) rfl) (convert_doubling (by simp) rfl) hne rfl

/-- The first callable by either of its names, and the second. -/
theorem cached_function_doubling :
    firstAgain ≠ first.type ∧
      (∃ f₁ f₂, (builtIn doubling {}).convertToText doubling .toRuntime first.type "v" = .ok (cachedText {} "v" f₁) ∧
        (builtIn doubling {}).convertToText doubling .toRuntime firstAgain "v" = .ok (cachedText {} "v" f₂) ∧ f₁ = f₂) ∧
      ∃ f₁ f₂, (builtIn doubling {}).convertToText doubling .toRuntime first.type "v" = .ok (cachedText {} "v" f₁) ∧
        (builtIn doubling {}).convertToText doubling .toRuntime second.type "v" = .ok (cachedText {} "v" f₂) := by
  have hfirst := select_doubling (t := first.type) (by simp)
  have hsecond := select_doubling (t := second.type) (by simp)
  have hagain := select_doubling (t := firstAgain) (by simp)
  have h₁ := convert_doubling (c := first) (by simp) rfl
  have h₂ := convert_doubling (c := second) (by simp) rfl
  have h₃ := toRuntime_congr hfirst hagain rfl h₁
  refine ⟨by decide +kernel, ?_, ?_⟩
  · obtain ⟨f₁, f₂, hx₁, hx₂, hsame⟩ := cached_function hfirst hagain h₁ h₃
    exact ⟨f₁, f₂, h₁.trans (congrArg Except.ok hx₁), h₃.trans (congrArg Except.ok hx₂), hsame rfl⟩
  · obtain ⟨f₁, f₂, hx₁, hx₂, -⟩ := cached_function hfirst hsecond h₁ h₂
    exact ⟨f₁, f₂, h₁.trans (congrArg Except.ok hx₁), h₂.trans (congrArg Except.ok hx₂)⟩

end Converter

end Marshal
