import Marshal.Proofs.BuiltIns
import Marshal.Proofs.Registration
import Marshal.Proofs.Transactions
import Marshal.Proofs.Traversal
import Mathlib.Control.Monad.Basic

/-! # The outcome of converting a callable

The parameters of the exported method are looked at twice: by the test whether the method can be used as it
is, which stops early, and by the conversions inside the wrapper. Both report the failure of the first
parameter that has one, so the outcome is decided by what each parameter does on its own. -/

namespace Marshal

/-! ### Answers -/

namespace Converter
variable {k : Converter} {cat : Catalog}

/-- The conversion has this outcome whatever writer it writes to. -/
def Answers (k : Converter) (cat : Catalog) (d : Direction) (t : HostType) (name : String)
    (answer : Except ConversionError Unit) : Prop :=
  ∀ w : Writer, ∃ w', k.convert cat d t name w = some (answer, w')

theorem answers_iff {d : Direction} {t : HostType} {name : String} {answer : Except ConversionError Unit} :
    k.Answers cat d t name answer ↔ (k.emission cat ⟨t, name, []⟩ d).result = answer :=
  Call.answers_iff (.convert d t name)

def SelectsIdentity (k : Converter) (cat : Catalog) (t : HostType) : Prop :=
  ∃ st, k.select cat t = .ok st ∧ st.isIdentity = true

end Converter

/-! ### Two passes over the parameters -/

namespace RuntimeFunction
variable {k : Converter} {cat : Catalog} {nest : Nesting} {types : List HostType}

theorem allIdentity_eq_true : allIdentity k cat types = .ok true ↔ ∀ p ∈ types, k.SelectsIdentity cat p := by
  induction types with
  | nil => simp [allIdentity]
  | cons p rest ih =>
    rw [List.forall_mem_cons, ← ih, Converter.SelectsIdentity, allIdentity]
    cases k.select cat p with
    | error x => exact ⟨fun h => (nomatch h), fun ⟨⟨_, h, _⟩, _⟩ => (nomatch h)⟩
    | ok st =>
      have hst : (∃ st', Except.ok (ε := ConversionError) st = .ok st' ∧ st'.isIdentity = true) ↔
          st.isIdentity = true := by simp
      rw [hst]
      show (if st.isIdentity then allIdentity k cat rest else .ok false) = .ok true ↔ _
      split
      · next h => simp [h]
      · next h => simp [h]

/-- The test fails at the first type without a strategy, and only if it has got that far. -/
theorem first_of_allIdentity_error {x : ConversionError} (h : allIdentity k cat types = .error x) :
    ∃ before p after, types = before ++ p :: after ∧ (∀ b ∈ before, k.SelectsIdentity cat b) ∧
      k.select cat p = .error x := by
  induction types with
  | nil => cases h
  | cons p rest ih =>
    rw [allIdentity] at h
    cases hp : k.select cat p with
    | error y =>
      rw [hp] at h
      cases h
      exact ⟨[], p, rest, rfl, fun b hb => (nomatch hb), hp⟩
    | ok st =>
      rw [hp] at h
      have h : (if st.isIdentity then allIdentity k cat rest else .ok false) = .error x := h
      split at h
      · next hst =>
        obtain ⟨before, q, after, rfl, hbefore, hq⟩ := ih h
        exact ⟨p :: before, q, after, rfl, List.forall_mem_cons.mpr ⟨⟨st, hp, hst⟩, hbefore⟩, hq⟩
      · cases h

section
variable {m : Method}

theorem isDirect_of_unresolvable {x : ConversionError} (h : k.select cat m.returns = .error x) :
    isDirect k cat m = .error x := by
  rw [isDirect, h]
  rfl

theorem isDirect_of_select {st : Strategy} (h : k.select cat m.returns = .ok st) :
    isDirect k cat m = if m.isStatic && st.isIdentity then allIdentity k cat m.paramTypes else .ok false := by
  rw [isDirect, h]
  rfl

theorem select_of_isDirect {direct : Bool} (h : isDirect k cat m = .ok direct) :
    ∃ st, k.select cat m.returns = .ok st := by
  cases hr : k.select cat m.returns with
  | ok st => exact ⟨st, rfl⟩
  | error x =>
    rw [isDirect_of_unresolvable hr] at h
    cases h

theorem isDirect_eq_true : isDirect k cat m = .ok true ↔
    ∃ st, k.select cat m.returns = .ok st ∧ m.isStatic = true ∧ st.isIdentity = true ∧
      ∀ p ∈ m.paramTypes, k.SelectsIdentity cat p := by
  cases hr : k.select cat m.returns with
  | error x =>
    rw [isDirect_of_unresolvable hr]
    exact ⟨fun h => (nomatch h), fun ⟨_, h, _⟩ => (nomatch h)⟩
  | ok st =>
    rw [isDirect_of_select hr, ← allIdentity_eq_true]
    cases m.isStatic <;> cases hst : st.isIdentity <;> simp [hst]

theorem isDirect_eq_error {x : ConversionError} (h : isDirect k cat m = .error x) :
    k.select cat m.returns = .error x ∨ (∃ st, k.select cat m.returns = .ok st) ∧
      ∃ before p after, m.paramTypes = before ++ p :: after ∧ (∀ b ∈ before, k.SelectsIdentity cat b) ∧
        k.select cat p = .error x := by
  cases hr : k.select cat m.returns with
  | error y =>
    rw [isDirect_of_unresolvable hr] at h
    cases h
    exact Or.inl rfl
  | ok st =>
    rw [isDirect_of_select hr] at h
    split at h
    · exact Or.inr ⟨⟨st, rfl⟩, first_of_allIdentity_error h⟩
    · cases h

end

theorem result_arguments {f : HostType → Except ConversionError Unit} (args : List (HostType × String))
    (hf : ∀ p name, (nest p name .fromRuntime).result = f p) :
    (arguments nest args).result = (args.map (·.1)).forM f := by
  induction args with
  | nil => rfl
  | cons a more ih =>
    cases more with
    | nil =>
      have hsingle : (arguments nest [a]).result = f a.1 := hf a.1 a.2
      have hforM : ([a].map (·.1)).forM f = (f a.1).bind fun _ => .ok () := rfl
      rw [hsingle, hforM]
      cases f a.1 <;> rfl
    | cons b rest =>
      have hcons : arguments nest (a :: b :: rest) = (do
          nest a.1 a.2 .fromRuntime
          .printLine ", "
          arguments nest (b :: rest)) := rfl
      have hmore : (Emission.printLine ", " >>= fun _ => arguments nest (b :: rest)).result =
          (arguments nest (b :: rest)).result := Emission.result_bind _ _
      rw [hcons, Emission.result_bind, hmore, hf, ih]
      rfl

theorem result_wrapper (s : Settings) (receiver : String) (owner : ClassDecl) (m : Method) :
    (wrapper s nest receiver owner m).result = (arguments nest (m.paramTypes.zip (formals s m))).result := by
  have closed := Emission.result_bind_of_ok (arguments nest (m.paramTypes.zip (formals s m))) (f := fun _ => do
    Emission.outdent
    .outdent
    .printLine ");"
    .outdent
    .print "\x7d") rfl
  unfold wrapper
  cases m.isStatic with
  | true => exact closed
  | false => exact closed

theorem result_function (receiver : String) (owner : ClassDecl) (m : Method) :
    (function k cat nest receiver owner m).result = (isDirect k cat m).bind fun direct =>
      if direct then .ok () else (arguments nest (m.paramTypes.zip (formals k.settings m))).result := by
  rw [function, Emission.result_bind]
  show (isDirect k cat m).bind _ = _
  congr 1
  funext direct
  cases direct with
  | true => rfl
  | false => exact result_wrapper _ _ _ _

/-- The failure of a function is that of the test whether the method can be used as it is, or that of an argument. -/
theorem error_of_function {receiver : String} {owner : ClassDecl} {m : Method} {x : ConversionError}
    (h : (function k cat nest receiver owner m).result = .error x) :
    isDirect k cat m = .error x ∨
      (∃ result, k.select cat m.returns = .ok result) ∧
        (arguments nest (m.paramTypes.zip (formals k.settings m))).result = .error x := by
  rw [result_function] at h
  cases hd : isDirect k cat m with
  | error y =>
    rw [hd] at h
    cases h
    exact Or.inl rfl
  | ok direct =>
    rw [hd] at h
    cases direct with
    | true => cases h
    | false => exact Or.inr ⟨select_of_isDirect hd, h⟩

theorem paramTypes_of_zip (s : Settings) (m : Method) :
    (m.paramTypes.zip (formals s m)).map (·.1) = m.paramTypes :=
  List.map_fst_zip (by simp [formals, Method.paramTypes])

end RuntimeFunction

/-! ### One parameter -/

namespace Converter
variable {cat₀ cat : Catalog} {s : Settings} {t p : HostType}

theorem result_nest (k : Converter) (c : Conversion) (name : String) (d : Direction) :
    (k.nest cat c p name d).result =
      (c.nested cat k.settings p name).bind fun inner => (k.emission cat inner d).result :=
  Emission.result_bind _ _

theorem result_nest_name (c : Conversion) (p : HostType) (argument own : String) :
    ((builtIn cat₀ s).nest cat c p argument .fromRuntime).result =
      ((builtIn cat₀ s).nest cat c p own .fromRuntime).result := by
  rw [result_nest, result_nest, Conversion.nested, Conversion.nested]
  split
  · rfl
  · exact result_fromRuntime rfl

theorem result_nest_of_maxDepth (h : s.maxDepth = 0) (name argument : String) :
    ((builtIn cat₀ s).nest cat ⟨t, name, []⟩ p argument .fromRuntime).result = .error (.recursive p.source 1) := by
  rw [result_nest, Conversion.nested_of_maxDepth_le (Nat.le_of_eq h)]
  rfl

theorem result_nest_of_reenters {name : String} (h : Conversion.reenters cat s ⟨t, name, []⟩ p = true)
    (argument : String) :
    ((builtIn cat₀ s).nest cat ⟨t, name, []⟩ p argument .fromRuntime).result = .error (.recursive p.source 1) := by
  rw [result_nest, Conversion.nested, show (builtIn cat₀ s).settings = s from rfl, h]
  rfl

theorem result_nest_of_not_reenters (hs : 1 ≤ s.maxDepth) {name : String}
    (h : ¬Conversion.reenters cat s ⟨t, name, []⟩ p = true) (argument own : String) :
    ((builtIn cat₀ s).nest cat ⟨t, name, []⟩ p argument .fromRuntime).result =
      ((builtIn cat₀ s).emission cat ⟨p, own, []⟩ .fromRuntime).result := by
  have hdepth : ¬s.maxDepth < 1 := Nat.not_lt.mpr hs
  have hnested : Conversion.nested cat s ⟨t, name, []⟩ p argument = .ok ⟨p, argument, [t.fingerprint]⟩ := by
    simp [Conversion.nested, Conversion.depth, h, hdepth]
  rw [result_nest, show (builtIn cat₀ s).settings = s from rfl, hnested]
  exact result_fromRuntime rfl

/-- The outcome for a parameter inside the conversion of `t`, by what its type does on its own. -/
def AnswersWithin (k : Converter) (cat : Catalog) (t p : HostType) (argument : String)
    (answer : Except ConversionError Unit) : Prop :=
  p.RefersTo t ∧ answer = .error (.recursive p.source 1) ∨
    ¬p.RefersTo t ∧ k.Answers cat .fromRuntime p argument answer

theorem answersWithin_iff (ht : (builtIn cat₀ s).select cat t = .ok .callable) (hs : 1 ≤ s.maxDepth)
    (name argument : String) {answer : Except ConversionError Unit} :
    (builtIn cat₀ s).AnswersWithin cat t p argument answer ↔
      ((builtIn cat₀ s).nest cat ⟨t, name, []⟩ p argument .fromRuntime).result = answer := by
  obtain ⟨-, href, hcallable⟩ := select_builtIn_callable ht
  have hreenters := Conversion.reenters_iff (p := p) href hcallable name
  unfold AnswersWithin
  by_cases hp : p.RefersTo t
  · rw [result_nest_of_reenters (hreenters.mpr hp)]
    simp [hp, eq_comm]
  · rw [result_nest_of_not_reenters hs (mt hreenters.mp hp) argument argument, answers_iff]
    simp [hp]

/-- A parameter that is the same on both sides is no callable, so it cannot refer to one. -/
theorem SelectsIdentity.answersWithin (ht : (builtIn cat₀ s).select cat t = .ok .callable)
    (hp : (builtIn cat₀ s).SelectsIdentity cat p) (hname : p.RefersTo t → p.source = t.source) (argument : String) :
    (builtIn cat₀ s).AnswersWithin cat t p argument (.ok ()) := by
  obtain ⟨st, hst, hid⟩ := hp
  obtain ⟨rfl, hplain⟩ := select_builtIn_isIdentity hst hid
  refine Or.inr ⟨fun href => ?_, answers_iff.mpr ?_⟩
  · obtain ⟨hplain', hclass, -⟩ := select_builtIn_callable ht
    have hsource := hname href
    obtain ⟨r, rfl, hr⟩ := href
    cases t with
    | primitive q => cases hclass
    | array e => cases hclass
    | object q =>
      rw [Strategy.isPlain_congr hr hsource, hplain'] at hplain
      cases hplain
  · rw [emission_of_select hst]
    rfl

/-- A parameter without a strategy is no callable either. -/
theorem answersWithin_of_unresolvable (ht : (builtIn cat₀ s).select cat t = .ok .callable) {x : ConversionError}
    (hp : (builtIn cat₀ s).select cat p = .error x) (argument : String) :
    (builtIn cat₀ s).AnswersWithin cat t p argument (.error x) := by
  refine Or.inr ⟨fun href => ?_, answers_iff.mpr ?_⟩
  · obtain ⟨-, hclass, hcallable⟩ := select_builtIn_callable ht
    have hp := (select_builtIn_error hp).2
    rw [Conversion.isCallable_of_refersTo hclass hcallable href, Bool.and_true] at hp
    obtain ⟨r, rfl, -⟩ := href
    cases hp
  · rw [emission_of_select_error hp]
    rfl

/-! ### All parameters -/

section
variable {decl : ClassDecl} {m : Method}

theorem result_toRuntime (ht : (builtIn cat₀ s).select cat t = .ok .callable) (hdecl : cat.declOf? t = some decl)
    (hid : decl.id ≠ .ofName s.types.callable) (hm : exportedMethod s decl = .ok m) (name : String) :
    ((builtIn cat₀ s).emission cat ⟨t, name, []⟩ .toRuntime).result =
      (RuntimeFunction.function (builtIn cat₀ s) cat ((builtIn cat₀ s).nest cat ⟨t, name, []⟩) name decl m).result := by
  rw [emission_of_select ht, emissionOf_callable, Strategy.emitCallable_of_method (k := builtIn cat₀ s) hdecl hid hm,
    Emission.result_print_bind, Emission.result_bind_of_ok _ rfl]

theorem result_arguments_nest (c : Conversion) (argument : String) :
    (RuntimeFunction.arguments ((builtIn cat₀ s).nest cat c) (m.paramTypes.zip (RuntimeFunction.formals s m))).result =
      m.paramTypes.forM fun p => ((builtIn cat₀ s).nest cat c p argument .fromRuntime).result := by
  rw [RuntimeFunction.result_arguments _ fun p name => result_nest_name c p name argument,
    RuntimeFunction.paramTypes_of_zip]

/-- A part is converted inside the value exactly if it does not come back to it and is converted on its own. -/
theorem result_nest_eq_ok (hs : 1 ≤ s.maxDepth) (name argument : String) :
    ((builtIn cat₀ s).nest cat ⟨t, name, []⟩ p argument .fromRuntime).result = .ok () ↔
      ¬(p.RefersTo t ∧ Conversion.isCallable cat s p = true) ∧
        (builtIn cat₀ s).Answers cat .fromRuntime p argument (.ok ()) := by
  rw [← Conversion.reenters_iff_isCallable name, answers_iff]
  by_cases h : Conversion.reenters cat s ⟨t, name, []⟩ p = true
  · rw [result_nest_of_reenters h]
    simp [h]
  · rw [result_nest_of_not_reenters hs h argument argument]
    simp [h]

theorem arguments_ok_iff (m : Method) (name argument : String) :
    (RuntimeFunction.arguments ((builtIn cat₀ s).nest cat ⟨t, name, []⟩)
        (m.paramTypes.zip (RuntimeFunction.formals s m))).result = .ok () ↔
      (m.params = [] ∨ 1 ≤ s.maxDepth) ∧
        ∀ p ∈ m.paramTypes, ¬(p.RefersTo t ∧ Conversion.isCallable cat s p = true) ∧
          (builtIn cat₀ s).Answers cat .fromRuntime p argument (.ok ()) := by
  rw [result_arguments_nest _ argument, Traversal.forM_eq_ok]
  rcases Nat.eq_zero_or_pos s.maxDepth with hs | hs
  · cases hparams : m.params with
    | nil => simp [Method.paramTypes, hparams]
    | cons p rest =>
      simp only [Method.paramTypes, hparams, List.map_cons, List.forall_mem_cons, result_nest_of_maxDepth hs]
      simp [hs]
  · simp only [result_nest_eq_ok hs]
    exact ⟨fun h => ⟨Or.inr hs, h⟩, fun h => h.2⟩

/-- The function of a method inside a conversion: either the method can be used as it is, or the wrapper can convert
    each parameter. -/
theorem function_eq_ok (owner : ClassDecl) (m : Method) (name receiver argument : String) :
    (RuntimeFunction.function (builtIn cat₀ s) cat ((builtIn cat₀ s).nest cat ⟨t, name, []⟩) receiver owner m).result =
        .ok () ↔
      ∃ result, (builtIn cat₀ s).select cat m.returns = .ok result ∧
        (m.isStatic = true ∧ result.isIdentity = true ∧ (∀ p ∈ m.paramTypes, (builtIn cat₀ s).SelectsIdentity cat p) ∨
          (m.params = [] ∨ 1 ≤ s.maxDepth) ∧
            ∀ p ∈ m.paramTypes, ¬(p.RefersTo t ∧ Conversion.isCallable cat s p = true) ∧
              (builtIn cat₀ s).Answers cat .fromRuntime p argument (.ok ())) := by
  rw [RuntimeFunction.result_function]
  cases hd : RuntimeFunction.isDirect (builtIn cat₀ s) cat m with
  | ok direct =>
    obtain ⟨result, hr⟩ := RuntimeFunction.select_of_isDirect hd
    cases direct with
    | true =>
      obtain ⟨result, hr, hdirect⟩ := RuntimeFunction.isDirect_eq_true.mp hd
      exact ⟨fun _ => ⟨result, hr, Or.inl hdirect⟩, fun _ => rfl⟩
    | false =>
      refine (arguments_ok_iff m name argument).trans ⟨fun h => ⟨result, hr, Or.inr h⟩, ?_⟩
      rintro ⟨result', hr', hdirect | h⟩
      · rw [RuntimeFunction.isDirect_eq_true.mpr ⟨result', hr', hdirect⟩] at hd
        cases hd
      · exact h
  | error x =>
    refine ⟨fun h => (nomatch h), ?_⟩
    intro hr
    obtain ⟨result, hr, h⟩ := hr
    rcases RuntimeFunction.isDirect_eq_error hd with hx | ⟨-, before, p, after, hparams, -, hp⟩
    · rw [hr] at hx
      cases hx
    · have hmem : p ∈ m.paramTypes := by simp [hparams]
      rcases h with ⟨-, -, hidentity⟩ | ⟨-, hanswers⟩
      · obtain ⟨st, hst, -⟩ := hidentity p hmem
        rw [hp] at hst
        cases hst
      · have hok := answers_iff.mp (hanswers p hmem).2
        rw [emission_of_select_error hp] at hok
        cases hok

theorem first_of_arguments_error (ht : (builtIn cat₀ s).select cat t = .ok .callable) (hs : 1 ≤ s.maxDepth)
    {name : String} {x : ConversionError} (argument : String)
    (h : (RuntimeFunction.arguments ((builtIn cat₀ s).nest cat ⟨t, name, []⟩)
      (m.paramTypes.zip (RuntimeFunction.formals s m))).result = .error x) :
    ∃ before p after, m.paramTypes = before ++ p :: after ∧
      (∀ b ∈ before, (builtIn cat₀ s).AnswersWithin cat t b argument (.ok ())) ∧
      (builtIn cat₀ s).AnswersWithin cat t p argument (.error x) := by
  rw [result_arguments_nest _ argument] at h
  obtain ⟨before, p, after, heq, hbefore, hp⟩ := Traversal.first_of_forM_error h
  refine ⟨before, p, after, heq, fun b hb => ?_, (answersWithin_iff ht hs name argument).mpr hp⟩
  exact (answersWithin_iff ht hs name argument).mpr (hbefore b hb)

theorem method_of_toRuntime_ok {name : String} (ht : (builtIn cat₀ s).select cat t = .ok .callable)
    (h : ((builtIn cat₀ s).emission cat ⟨t, name, []⟩ .toRuntime).result = .ok ()) :
    ∃ decl m, cat.declOf? t = some decl ∧ decl.id ≠ .ofName s.types.callable ∧ exportedMethod s decl = .ok m := by
  rw [emission_of_select ht, emissionOf_callable] at h
  cases hdecl : cat.declOf? t with
  | none =>
    rw [Strategy.emitCallable_of_unknown hdecl] at h
    cases h
  | some decl =>
    by_cases hid : decl.id = .ofName s.types.callable
    · rw [Strategy.emitCallable_of_marker (k := builtIn cat₀ s) hdecl hid] at h
      cases h
    · cases hm : exportedMethod s decl with
      | error x =>
        rw [Strategy.emitCallable_of_noMethod (k := builtIn cat₀ s) hdecl hid hm] at h
        cases h
      | ok m => exact ⟨decl, m, rfl, hid, hm⟩

theorem toRuntime_eq_ok (ht : (builtIn cat₀ s).select cat t = .ok .callable) (hdecl : cat.declOf? t = some decl)
    (hid : decl.id ≠ .ofName s.types.callable) (hm : exportedMethod s decl = .ok m) (name argument : String) :
    ((builtIn cat₀ s).emission cat ⟨t, name, []⟩ .toRuntime).result = .ok () ↔
      ∃ result, (builtIn cat₀ s).select cat m.returns = .ok result ∧
        (m.isStatic = true ∧ result.isIdentity = true ∧ (∀ p ∈ m.paramTypes, (builtIn cat₀ s).SelectsIdentity cat p) ∨
          (m.params = [] ∨ 1 ≤ s.maxDepth) ∧
            ∀ p ∈ m.paramTypes, (builtIn cat₀ s).AnswersWithin cat t p argument (.ok ())) := by
  have hwithin (p : HostType) : (builtIn cat₀ s).AnswersWithin cat t p argument (.ok ()) ↔
      ¬(p.RefersTo t ∧ Conversion.isCallable cat s p = true) ∧
        (builtIn cat₀ s).Answers cat .fromRuntime p argument (.ok ()) := by
    obtain ⟨-, href, hcallable⟩ := select_builtIn_callable ht
    rw [← Conversion.reenters_iff_isCallable name, Conversion.reenters_iff href hcallable]
    simp [AnswersWithin]
  simp only [result_toRuntime ht hdecl hid hm, function_eq_ok decl m name name argument, hwithin]

/-- Both passes report the failure of the first parameter that has one. -/
theorem toRuntime_eq_error (ht : (builtIn cat₀ s).select cat t = .ok .callable) (hdecl : cat.declOf? t = some decl)
    (hid : decl.id ≠ .ofName s.types.callable) (hm : exportedMethod s decl = .ok m) (hs : 1 ≤ s.maxDepth)
    (hnames : ∀ p ∈ m.paramTypes, p.RefersTo t → p.source = t.source) (name argument : String) {x : ConversionError}
    (h : ((builtIn cat₀ s).emission cat ⟨t, name, []⟩ .toRuntime).result = .error x) :
    (builtIn cat₀ s).select cat m.returns = .error x ∨
      (∃ result, (builtIn cat₀ s).select cat m.returns = .ok result) ∧
        ∃ before p after, m.paramTypes = before ++ p :: after ∧
          (∀ b ∈ before, (builtIn cat₀ s).AnswersWithin cat t b argument (.ok ())) ∧
          (builtIn cat₀ s).AnswersWithin cat t p argument (.error x) := by
  rw [result_toRuntime ht hdecl hid hm] at h
  rcases RuntimeFunction.error_of_function h with hd | ⟨hr, harguments⟩
  · rcases RuntimeFunction.isDirect_eq_error hd with hx | ⟨hr, before, p, after, hparams, hbefore, hp⟩
    · exact Or.inl hx
    · refine Or.inr ⟨hr, before, p, after, hparams, fun b hb => ?_, answersWithin_of_unresolvable ht hp argument⟩
      exact (hbefore b hb).answersWithin ht (hnames b (by simp [hparams, hb])) argument
  · exact Or.inr ⟨hr, first_of_arguments_error ht hs argument harguments⟩

end

/-! ### The callable -/

/-- The conversion of a callable to the runtime succeeds exactly if the callable is declared, is not the marker,
    has an exported method whose result has a strategy, and this method can be used as it is or the wrapper can
    convert each parameter. Once there is a method and a level for its parameters, the failure is that of the
    result, and else that of the first parameter that has one. -/
theorem callable_outcome (hcat : cat.Reachable) (ht : (builtIn cat₀ s).select cat t = .ok .callable)
    (name argument : String) :
    ((builtIn cat₀ s).Answers cat .toRuntime t name (.ok ()) ↔
      ∃ decl m result, cat.declOf? t = some decl ∧ t.fingerprint ≠ .ofName s.types.callable ∧
        exportedMethod s decl = .ok m ∧ (builtIn cat₀ s).select cat m.returns = .ok result ∧
        (m.isStatic = true ∧ result.isIdentity = true ∧ (∀ p ∈ m.paramTypes, (builtIn cat₀ s).SelectsIdentity cat p) ∨
          (m.params = [] ∨ 1 ≤ s.maxDepth) ∧
            ∀ p ∈ m.paramTypes, ¬p.RefersTo t ∧ (builtIn cat₀ s).Answers cat .fromRuntime p argument (.ok ()))) ∧
    ∀ decl m x, cat.declOf? t = some decl → t.fingerprint ≠ .ofName s.types.callable →
      exportedMethod s decl = .ok m → 1 ≤ s.maxDepth → (∀ p ∈ m.paramTypes, p.RefersTo t → p.source = t.source) →
      (builtIn cat₀ s).Answers cat .toRuntime t name (.error x) →
      (builtIn cat₀ s).select cat m.returns = .error x ∧ x = .unresolvable m.returns.source ∨
        (∃ result, (builtIn cat₀ s).select cat m.returns = .ok result) ∧
          ∃ before p after, m.paramTypes = before ++ p :: after ∧
            (∀ b ∈ before, ¬b.RefersTo t ∧ (builtIn cat₀ s).Answers cat .fromRuntime b argument (.ok ())) ∧
            (p.RefersTo t ∧ x = .recursive p.source 1 ∨
              ¬p.RefersTo t ∧ (builtIn cat₀ s).Answers cat .fromRuntime p argument (.error x)) := by
  have hok (p : HostType) : (builtIn cat₀ s).AnswersWithin cat t p argument (.ok ()) ↔
      ¬p.RefersTo t ∧ (builtIn cat₀ s).Answers cat .fromRuntime p argument (.ok ()) := by
    simp [AnswersWithin]
  have hkey {decl : ClassDecl} (hdecl : cat.declOf? t = some decl) : decl.id = t.fingerprint :=
    hcat.indexed.id_of_declOf? hdecl
  refine ⟨⟨fun h => ?_, ?_⟩, ?_⟩
  · obtain ⟨decl, m, hdecl, hid, hm⟩ := method_of_toRuntime_ok ht (answers_iff.mp h)
    obtain ⟨result, hr, hway⟩ := (toRuntime_eq_ok ht hdecl hid hm name argument).mp (answers_iff.mp h)
    simp only [hok] at hway
    exact ⟨decl, m, result, hdecl, hkey hdecl ▸ hid, hm, hr, hway⟩
  · intro hdecl
    obtain ⟨decl, m, result, hdecl, hid, hm, hr, hway⟩ := hdecl
    simp only [← hok] at hway
    rw [← hkey hdecl] at hid
    exact answers_iff.mpr ((toRuntime_eq_ok ht hdecl hid hm name argument).mpr ⟨result, hr, hway⟩)
  · intro decl m x hdecl hid hm hs hnames h
    rw [← hkey hdecl] at hid
    rcases toRuntime_eq_error ht hdecl hid hm hs hnames name argument (answers_iff.mp h) with
      hr | ⟨hr, before, p, after, hparams, hbefore, hp⟩
    · exact Or.inl ⟨hr, (select_builtIn_error hr).1⟩
    · refine Or.inr ⟨hr, before, p, after, hparams, fun b hb => (hok b).mp (hbefore b hb), ?_⟩
      rcases hp with ⟨hp, hx⟩ | hp
      · cases hx
        exact Or.inl ⟨hp, rfl⟩
      · exact Or.inr hp

def heard : Method :=
  { name := "heard", params := [⟨"count", .primitive .int⟩, ⟨"text", .named RuntimeType.string⟩] }

/-- Its second parameter is the callable again. -/
def again : Method :=
  { name := "again", params := [⟨"count", .primitive .int⟩, ⟨"next", .named "demo.Loop"⟩] }

def callableWith (source : String) (m : Method) : ClassDecl :=
  { ClassDecl.interfaceNamed source with interfaces := [.named RuntimeType.callable], methods := [m] }

def listening : Catalog :=
  (Catalog.runtime.declareAll [callableWith "demo.Listener" heard, callableWith "demo.Loop" again]).1

-- Stated together, so that the catalog is evaluated once.
theorem listening_evaluated :
    (Strategy.isPlain listening {} (.named "demo.Listener") = false ∧
      Conversion.isCallable listening {} (.named "demo.Listener") = true ∧
      listening.declOf? (.named "demo.Listener") = some (callableWith "demo.Listener" heard) ∧
      HostType.fingerprint (.named "demo.Listener") ≠ .ofName RuntimeType.callable) ∧
    (Strategy.isPlain listening {} (.named "demo.Loop") = false ∧
      Conversion.isCallable listening {} (.named "demo.Loop") = true ∧
      listening.declOf? (.named "demo.Loop") = some (callableWith "demo.Loop" again) ∧
      HostType.fingerprint (.named "demo.Loop") ≠ .ofName RuntimeType.callable) ∧
    Strategy.isPlain listening {} (.named RuntimeType.string) = true ∧
    HostType.fingerprint (.named RuntimeType.string) ≠ HostType.fingerprint (.named "demo.Listener") ∧
    ((builtIn listening {}).emission listening ⟨.named "demo.Loop", "f", []⟩ .toRuntime).result =
      .error (.recursive "demo.Loop" 1) := by
  decide +kernel

theorem select_listening {source : String} (hplain : Strategy.isPlain listening {} (.named source) = false)
    (hcallable : Conversion.isCallable listening {} (.named source) = true) :
    (builtIn listening {}).select listening (.named source) = .ok .callable := by
  rw [select_builtIn, hplain, hcallable]
  rfl

theorem answers_listening (name : String) :
    (builtIn listening {}).Answers listening .toRuntime (.named "demo.Listener") name (.ok ()) := by
  obtain ⟨⟨hplain, hcallable, hdecl, hid⟩, -, hstring, hne, -⟩ := listening_evaluated
  have ht := select_listening hplain hcallable
  have hidentity : ∀ p ∈ heard.paramTypes, (builtIn listening {}).SelectsIdentity listening p := by
    refine List.forall_mem_cons.mpr ⟨⟨.identity, rfl, rfl⟩, List.forall_mem_singleton.mpr ⟨.identity, ?_, rfl⟩⟩
    rw [select_builtIn, hstring]
    rfl
  have hnames : ∀ p ∈ heard.paramTypes, p.RefersTo (.named "demo.Listener") →
      p.source = HostType.source (.named "demo.Listener") := by
    refine List.forall_mem_cons.mpr ⟨fun ⟨_, h, _⟩ => (nomatch h), List.forall_mem_singleton.mpr ?_⟩
    rintro ⟨r, h, hr⟩
    cases h
    exact absurd hr hne
  refine answers_iff.mpr ((toRuntime_eq_ok ht hdecl hid rfl name "argument").mpr ⟨.identity, rfl, Or.inr ?_⟩)
  exact ⟨Or.inr (by decide), fun p hp => (hidentity p hp).answersWithin ht (hnames p hp) "argument"⟩

/-- One callable is converted by a wrapper; the other fails at the parameter that refers to it. -/
theorem callable_outcome_listening :
    listening.Reachable ∧
      (builtIn listening {}).select listening (.named "demo.Listener") = .ok .callable ∧
      (builtIn listening {}).Answers listening .toRuntime (.named "demo.Listener") "f" (.ok ()) ∧
      (builtIn listening {}).select listening (.named "demo.Loop") = .ok .callable ∧
      (builtIn listening {}).Answers listening .toRuntime (.named "demo.Loop") "f" (.error (.recursive "demo.Loop" 1)) ∧
      ∃ before p after, again.paramTypes = before ++ p :: after ∧ p.RefersTo (.named "demo.Loop") := by
  obtain ⟨⟨hplain, hcallable, hdecl, hid⟩, ⟨hplain', hcallable', hdecl', hid'⟩, hstring, hne, hfails⟩ :=
    listening_evaluated
  have hcat : listening.Reachable := Catalog.Reachable.runtime.declareAll _
  have hlistener := select_listening hplain hcallable
  have hloop := select_listening hplain' hcallable'
  have hvoid : (builtIn listening {}).select listening (.primitive .void) = .ok .identity := rfl
  have hint : (builtIn listening {}).Answers listening .fromRuntime (.primitive .int) "a" (.ok ()) :=
    answers_iff.mpr rfl
  have hfails := answers_iff.mpr hfails
  refine ⟨hcat, hlistener, ?_, hloop, hfails, ?_⟩
  · refine (callable_outcome hcat hlistener "f" "a").1.mpr
      ⟨_, heard, .identity, hdecl, hid, rfl, hvoid, Or.inr ⟨Or.inr (by decide), ?_⟩⟩
    refine List.forall_mem_cons.mpr ⟨⟨fun ⟨_, h, _⟩ => (nomatch h), hint⟩, List.forall_mem_singleton.mpr ⟨?_, ?_⟩⟩
    · rintro ⟨r, h, hr⟩
      cases h
      exact hne hr
    · have hselect : (builtIn listening {}).select listening (.named RuntimeType.string) = .ok .identity := by
        rw [select_builtIn, hstring]
        rfl
      rw [answers_iff, emission_of_select hselect]
      rfl
  · have hnames : ∀ p ∈ again.paramTypes, p.RefersTo (.named "demo.Loop") →
        p.source = HostType.source (.named "demo.Loop") :=
      List.forall_mem_cons.mpr ⟨fun ⟨_, h, _⟩ => (nomatch h), List.forall_mem_singleton.mpr fun _ => rfl⟩
    rcases (callable_outcome hcat hloop "f" "a").2 _ again _ hdecl' hid' rfl (by decide) hnames hfails with
      ⟨h, -⟩ | ⟨-, before, p, after, hparams, -, hp⟩
    · cases hvoid.symm.trans h
    · refine ⟨before, p, after, hparams, hp.elim And.left fun ⟨hp, hown⟩ => ?_⟩
      have hmem : p ∈ again.paramTypes := by simp [hparams]
      rcases List.mem_cons.mp hmem with rfl | hmem
      · cases (answers_iff.mp hint).symm.trans (answers_iff.mp hown)
      · cases List.mem_singleton.mp hmem
        exact absurd ⟨_, rfl, rfl⟩ hp

end Converter

end Marshal
