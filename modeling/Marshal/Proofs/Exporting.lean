import Marshal.Proofs.FunctionTexts
import Mathlib.Data.List.Forall2

/-! # The outcome of exporting a class

Each export is one statement, and the first statement that fails is the one that is reported. The class that is
exported counts as being converted in all of them, also where a method is inherited from another class: a parameter
may refer to the exported class unless that class is a callable. -/

namespace Marshal

namespace Converter
open RuntimeFunction
variable {cat₀ cat : Catalog} {s : Settings} {t : HostType} {es : List Export} {receiver : String}

/-! ### One method -/

/-- The method can be called from the runtime as a method of the type: its result has a strategy, and it can be used
    as it is, or each of its parameters can be converted and does not come back to the type. -/
def Exportable (k : Converter) (cat : Catalog) (t : HostType) (argument : String) (m : Method) : Prop :=
  (∃ result, k.select cat m.returns = .ok result) ∧
    (NeedsNoConversion k cat m ∨
      (m.params = [] ∨ 1 ≤ k.settings.maxDepth) ∧
        ∀ p ∈ m.paramTypes, ¬(p.RefersTo t ∧ Conversion.isCallable cat k.settings p = true) ∧
          k.Answers cat .fromRuntime p argument (.ok ()))

theorem exportable_iff (owner : ClassDecl) (m : Method) (receiver argument : String) :
    Exportable (builtIn cat₀ s) cat t argument m ↔
      (function (builtIn cat₀ s) cat ((builtIn cat₀ s).nest cat ⟨t, receiver, []⟩) receiver owner m).result =
        .ok () := by
  rw [function_eq_ok owner m receiver receiver argument, Exportable]
  constructor
  · rintro ⟨⟨result, hr⟩, ⟨hstatic, ⟨st, hst, hid⟩, hparams⟩ | hway⟩
    · exact ⟨st, hst, Or.inl ⟨hstatic, hid, hparams⟩⟩
    · exact ⟨result, hr, Or.inr hway⟩
  · rintro ⟨result, hr, ⟨hstatic, hid, hparams⟩ | hway⟩
    · exact ⟨⟨result, hr⟩, Or.inl ⟨hstatic, ⟨result, hr, hid⟩, hparams⟩⟩
    · exact ⟨⟨result, hr⟩, Or.inr hway⟩

/-- The parameter is at fault: it comes back to the type, or there is no level for it, or it fails on its own. -/
def AtFault (k : Converter) (cat : Catalog) (t p : HostType) (argument : String) (x : ConversionError) : Prop :=
  (p.RefersTo t ∧ Conversion.isCallable cat k.settings p = true ∨ k.settings.maxDepth = 0) ∧
      x = .recursive p.source 1 ∨
    k.Answers cat .fromRuntime p argument (.error x)

theorem atFault_of_nest {p : HostType} {argument : String} {x : ConversionError}
    (h : ((builtIn cat₀ s).nest cat ⟨t, receiver, []⟩ p argument .fromRuntime).result = .error x) :
    AtFault (builtIn cat₀ s) cat t p argument x := by
  rcases Nat.eq_zero_or_pos s.maxDepth with hs | hs
  · rw [result_nest_of_maxDepth hs] at h
    cases h
    exact Or.inl ⟨Or.inr hs, rfl⟩
  · by_cases hre : Conversion.reenters cat s ⟨t, receiver, []⟩ p = true
    · rw [result_nest_of_reenters hre] at h
      cases h
      exact Or.inl ⟨Or.inl ((Conversion.reenters_iff_isCallable receiver).mp hre), rfl⟩
    · rw [result_nest_of_not_reenters hs hre argument argument] at h
      exact Or.inr (answers_iff.mpr h)

/-- Whichever pass over the parameters notices a failure, it is that of the result or of a parameter. -/
theorem fault_of_function {owner : ClassDecl} {m : Method} {x : ConversionError}
    (h : (function (builtIn cat₀ s) cat ((builtIn cat₀ s).nest cat ⟨t, receiver, []⟩) receiver owner m).result =
      .error x) (argument : String) :
    (builtIn cat₀ s).select cat m.returns = .error x ∨
      ∃ p ∈ m.paramTypes, AtFault (builtIn cat₀ s) cat t p argument x := by
  rcases error_of_function h with hd | ⟨-, harguments⟩
  · rcases isDirect_eq_error hd with hr | ⟨-, before, p, after, hparams, -, hp⟩
    · exact Or.inl hr
    · refine Or.inr ⟨p, by simp [hparams], Or.inr (answers_iff.mpr ?_)⟩
      rw [emission_of_select_error hp]
      rfl
  · have harguments : (arguments ((builtIn cat₀ s).nest cat ⟨t, receiver, []⟩)
        (m.paramTypes.zip (formals s m))).result = .error x := harguments
    rw [result_arguments_nest _ argument] at harguments
    obtain ⟨before, p, after, hparams, -, hp⟩ := Traversal.first_of_forM_error harguments
    exact Or.inr ⟨p, by simp [hparams], atFault_of_nest hp⟩

/-! ### All statements -/

/-- The statements come to what their functions come to, one after the other. -/
theorem result_exportStatements (k : Converter) (cat : Catalog) (host : Conversion) (target : String)
    (es : List Export) : (k.exportStatements cat host target es).result =
      es.forM fun e => (function k cat (k.nest cat host) host.name e.owner e.method).result := by
  induction es with
  | nil => rfl
  | cons e rest ih =>
    have hrest : (Emission.printLine ";" >>= fun _ => k.exportStatements cat host target rest).result =
        (k.exportStatements cat host target rest).result := Emission.result_bind _ _
    rw [exportStatements, Emission.result_print_bind, Emission.result_bind, hrest, ih]
    rfl

theorem result_exportStatement (k : Converter) (cat : Catalog) (host : Conversion) (target : String) (e : Export) :
    (k.exportStatements cat host target [e]).result =
      (function k cat (k.nest cat host) host.name e.owner e.method).result := by
  rw [exportStatements, Emission.result_print_bind, Emission.result_bind_of_ok _ rfl]

theorem exportStatements_eq_ok (receiver target argument : String) :
    ((builtIn cat₀ s).exportStatements cat ⟨t, receiver, []⟩ target es).result = .ok () ↔
      ∀ e ∈ es, Exportable (builtIn cat₀ s) cat t argument e.method := by
  rw [result_exportStatements, Traversal.forM_eq_ok]
  exact forall₂_congr fun e _ => (exportable_iff e.owner e.method receiver argument).symm

theorem first_of_exportStatements_error {target : String} {x : ConversionError} (argument : String)
    (h : ((builtIn cat₀ s).exportStatements cat ⟨t, receiver, []⟩ target es).result = .error x) :
    ∃ before e after, es = before ++ e :: after ∧
      (∀ b ∈ before, Exportable (builtIn cat₀ s) cat t argument b.method) ∧
      ((builtIn cat₀ s).exportStatements cat ⟨t, receiver, []⟩ target [e]).result = .error x := by
  rw [result_exportStatements] at h
  obtain ⟨before, e, after, heq, hbefore, he⟩ := Traversal.first_of_forM_error h
  refine ⟨before, e, after, heq, fun b hb => (exportable_iff b.owner _ receiver argument).mpr (hbefore b hb), ?_⟩
  rw [result_exportStatement, he]

/-- The statement that makes the function a property of the object. -/
def assignment (target : String) (e : Export) (fn : String) : String := target ++ "." ++ e.name ++ " = " ++ fn ++ ";\n"

theorem prints_exportStatements {unit : String} (target : String)
    (hnames : ∀ e ∈ es, NamesOneLine cat₀ { s with indentUnit := unit } receiver e.owner e.method)
    (h : ((builtIn cat₀ s).exportStatements cat ⟨t, receiver, []⟩ target es).result = .ok ()) :
    ∃ fns, List.Forall₂ (fun e fn => FunctionText (builtIn cat₀ s) cat unit receiver e.owner e.method fn) es fns ∧
      ((builtIn cat₀ s).exportStatements cat ⟨t, receiver, []⟩ target es).Prints unit
        (String.join (List.zipWith (assignment target) es fns)) := by
  rw [result_exportStatements, Traversal.forM_eq_ok] at h
  induction es with
  | nil => exact ⟨[], .nil, Emission.prints_pure unit⟩
  | cons e rest ih =>
    obtain ⟨fns, hfns, hrest⟩ := ih (fun b hb => hnames b (List.mem_cons_of_mem _ hb))
      fun b hb => h b (List.mem_cons_of_mem _ hb)
    obtain ⟨fn, hfn, hprints⟩ := prints_functionText (hnames e (List.mem_cons_self ..)) (h e (List.mem_cons_self ..))
    refine ⟨fn :: fns, .cons hfn hfns, ?_⟩
    have htext : assignment target e fn ++ String.join (List.zipWith (assignment target) rest fns) =
        target ++ "." ++ e.name ++ " = " ++
          (fn ++ (";" ++ "\n" ++ String.join (List.zipWith (assignment target) rest fns))) := by
      have hend : ";\n" = ";" ++ "\n" := rfl
      simp only [assignment, hend, String.append_assoc]
    rw [List.zipWith_cons_cons, String.join_cons, htext]
    refine (Emission.prints_print unit _).bind (hprints.bind ?_)
    exact (Emission.prints_printLine unit ";").bind hrest

/-! ### The class -/

theorem result_binding (k : Converter) (cat : Catalog) (c : ClassDecl) (target receiver : String) :
    (k.binding cat c target receiver).result = (k.exports cat c target receiver).result := Emission.result_bind _ _

/-- A class is exported exactly if each of its exports can be. The failure is that of the first export that cannot
    be, and it is the failure of its result or of one of its parameters. A binding has the same outcome. What is
    written from the start of a text is one assignment for each export, in order, each of the function of its method;
    a binding begins with the back reference. -/
theorem exports_outcome (cat₀ cat : Catalog) (s : Settings) (c : ClassDecl) (target receiver argument : String) :
    ((Call.exports c target receiver).Answers (builtIn cat₀ s) cat (.ok ()) ↔
      ∀ e ∈ Export.all cat s c, Exportable (builtIn cat₀ s) cat c.type argument e.method) ∧
    (∀ x, (Call.exports c target receiver).Answers (builtIn cat₀ s) cat (.error x) →
      ∃ before e after, Export.all cat s c = before ++ e :: after ∧
        (∀ b ∈ before, Exportable (builtIn cat₀ s) cat c.type argument b.method) ∧
        ¬Exportable (builtIn cat₀ s) cat c.type argument e.method ∧
        ((builtIn cat₀ s).exportStatements cat ⟨c.type, receiver, []⟩ target [e]).result = .error x ∧
        ((builtIn cat₀ s).select cat e.method.returns = .error x ∨
          ∃ p ∈ e.method.paramTypes, AtFault (builtIn cat₀ s) cat c.type p argument x)) ∧
    (∀ answer, (Call.binding c target receiver).Answers (builtIn cat₀ s) cat answer ↔
      (Call.exports c target receiver).Answers (builtIn cat₀ s) cat answer) ∧
    ∀ unit, (∀ e ∈ Export.all cat s c, NamesOneLine cat₀ { s with indentUnit := unit } receiver e.owner e.method) →
      (Call.exports c target receiver).Answers (builtIn cat₀ s) cat (.ok ()) →
      ∃ fns w w', List.Forall₂ (fun e fn => FunctionText (builtIn cat₀ s) cat unit receiver e.owner e.method fn)
          (Export.all cat s c) fns ∧
        (builtIn cat₀ s).writeExports cat c target receiver { unit := unit } = some (.ok (), w) ∧
        w.text = String.join (List.zipWith (assignment target) (Export.all cat s c) fns) ∧
        (builtIn cat₀ s).writeBinding cat c target receiver { unit := unit } = some (.ok (), w') ∧
        w'.text = target ++ "." ++ s.members.backReference ++ " = " ++ receiver ++ ";\n" ++ w.text := by
  have hexports (answer : Except ConversionError Unit) :
      (Call.exports c target receiver).Answers (builtIn cat₀ s) cat answer ↔
        ((builtIn cat₀ s).exportStatements cat ⟨c.type, receiver, []⟩ target (Export.all cat s c)).result = answer :=
    Call.answers_iff _
  refine ⟨(hexports _).trans (exportStatements_eq_ok receiver target argument), fun x h => ?_, fun answer => ?_,
    fun unit hnames h => ?_⟩
  · obtain ⟨before, e, after, heq, hbefore, he⟩ := first_of_exportStatements_error argument ((hexports _).mp h)
    have hfunction := he
    rw [result_exportStatement] at hfunction
    refine ⟨before, e, after, heq, hbefore, fun hok => ?_, he, fault_of_function hfunction argument⟩
    rw [(exportable_iff e.owner e.method receiver argument).mp hok] at hfunction
    cases hfunction
  · rw [Call.answers_iff, Call.answers_iff]
    exact iff_of_eq (congrArg (· = answer) (result_binding _ cat c target receiver))
  · obtain ⟨fns, hfns, hprints⟩ := prints_exportStatements target hnames ((hexports _).mp h)
    have hbinding := (Emission.prints_printLine unit
      (target ++ "." ++ s.members.backReference ++ " = " ++ receiver ++ ";")).bind (f := fun _ => _) hprints
    refine ⟨fns, _, _, hfns, hprints.transact rfl, Writer.text_print_new _ _, hbinding.transact rfl, ?_⟩
    have hend : ";\n" = ";" ++ "\n" := rfl
    rw [Writer.text_print_new, Writer.text_print_new, hend]
    simp only [String.append_assoc]

/-! Two classes, one above the other, and a class that is not declared. -/

def exported : Tags := ⟨[("gwt.exported", [])]⟩

def describe : Method := { name := "describe", tags := exported }

def parentClass : ClassDecl := { ClassDecl.classNamed "demo.Parent" with methods := [describe] }

def sum : Method :=
  { name := "sum", params := [⟨"a", .primitive .int⟩, ⟨"b", .primitive .int⟩], returns := .primitive .int
    modifiers := { isStatic := true }, tags := exported }

/-- Exported under another name; its parameter is the class itself. -/
def adopt : Method :=
  { name := "adopt", params := [⟨"child", .named "demo.Child"⟩]
    tags := ⟨[("gwt.exported", []), ("gwt.fieldName", ["push"])]⟩ }

def childClass : ClassDecl :=
  { ClassDecl.classNamed "demo.Child" with
    superclass := some (.named "demo.Parent"), methods := [factoryOf "demo.Child", sum, adopt] }

def spread : Method := { name := "spread", params := [⟨"values", .array (.primitive .int)⟩], tags := exported }

def strayClass : ClassDecl :=
  { ClassDecl.classNamed "demo.Stray" with superclass := some (.named "demo.Child"), methods := [describe, spread] }

def family : Catalog := (Catalog.runtime.declareAll [parentClass, childClass]).1

-- Stated together, so that the catalog is evaluated once.
theorem family_evaluated :
    Export.all family {} childClass =
      [⟨"sum", childClass, sum⟩, ⟨"push", childClass, adopt⟩, ⟨"describe", parentClass, describe⟩] ∧
    ((PeerIndex.ofCatalog family {}).of? (.named "demo.Child")).bind (·.factory) =
      some ⟨⟨.parse "demo.Child", "createPeer"⟩, .named "demo.Child", (factoryOf "demo.Child").signature⟩ ∧
    ((builtIn family {}).exports family childClass "jso" "obj").result = .ok () ∧
    ((builtIn family {}).exports family strayClass "jso" "obj").result = .error (.unresolvable "int[]") := by
  decide +kernel

/-- The static method is exported as it is, the two others by wrappers; the method of the class that is not declared
    has a parameter that no strategy accepts. -/
theorem exports_outcome_family :
    (∀ e ∈ Export.all family {} childClass, NamesOneLine family {} "obj" e.owner e.method) ∧
    (Call.exports childClass "jso" "obj").Answers (builtIn family {}) family (.ok ()) ∧
    (∃ push described w, FunctionText (builtIn family {}) family "  " "obj" childClass adopt push ∧
      FunctionText (builtIn family {}) family "  " "obj" parentClass describe described ∧
      (builtIn family {}).writeExports family childClass "jso" "obj" {} = some (.ok (), w) ∧
      w.text = "jso.sum = @demo.Child::sum(II);\n" ++ ("jso.push = " ++ push ++ ";\n" ++
        ("jso.describe = " ++ described ++ ";\n"))) ∧
    (Call.exports strayClass "jso" "obj").Answers (builtIn family {}) family (.error (.unresolvable "int[]")) ∧
    ∃ e ∈ Export.all family {} strayClass, ¬Exportable (builtIn family {}) family strayClass.type "a" e.method := by
  obtain ⟨hall, hfactory, hok, hfails⟩ := family_evaluated
  have hok := (Call.answers_iff (.exports childClass "jso" "obj")).mpr hok
  have hfails := (Call.answers_iff (.exports strayClass "jso" "obj")).mpr hfails
  have hnames : ∀ e ∈ Export.all family {} childClass, NamesOneLine family {} "obj" e.owner e.method := by
    rw [hall]
    have hdefault {owner : ClassDecl} {m : Method} (h : OneLine (methodReference owner m))
        (hf : ∀ p ∈ m.paramTypes, ∀ f, ((PeerIndex.ofCatalog family {}).of? p).bind (·.factory) = some f →
          OneLine f.member.reference ∧ OneLine f.signature) : NamesOneLine family {} "obj" owner m :=
      ⟨by decide, by decide, by decide, h, by decide, hf⟩
    refine List.forall_mem_cons.mpr ⟨?_, List.forall_mem_cons.mpr ⟨?_, List.forall_mem_singleton.mpr ?_⟩⟩
    · refine hdefault (by decide +kernel) (List.forall_mem_cons.mpr ⟨fun f hf => (nomatch hf), ?_⟩)
      exact List.forall_mem_singleton.mpr fun f hf => (nomatch hf)
    · refine hdefault (by decide +kernel) (List.forall_mem_singleton.mpr fun f hf => ?_)
      rw [hfactory] at hf
      cases hf
      decide +kernel
    · exact hdefault (by decide +kernel) fun p hp => (nomatch hp)
  obtain ⟨-, -, -, htext⟩ := exports_outcome family family {} childClass "jso" "obj" "a"
  obtain ⟨-, hfault, -⟩ := exports_outcome family family {} strayClass "jso" "obj" "a"
  refine ⟨hnames, hok, ?_, hfails, ?_⟩
  · obtain ⟨fns, w, -, hfns, hw, htext, -⟩ := htext "  " hnames hok
    rw [hall] at hfns htext
    rcases hfns with _ | ⟨hplain, _ | ⟨hpush, _ | ⟨hdescribed, _ | _⟩⟩⟩
    have hint : (builtIn family {}).SelectsIdentity family (.primitive .int) := ⟨.identity, rfl, rfl⟩
    have hno : NeedsNoConversion (builtIn family {}) family sum :=
      ⟨rfl, hint, List.forall_mem_cons.mpr ⟨hint, List.forall_mem_singleton.mpr hint⟩⟩
    have href : methodReference childClass sum = "@demo.Child::sum(II)" := by decide +kernel
    refine ⟨_, _, w, hpush, hdescribed, hw, ?_⟩
    rw [htext, hplain.eq_methodReference_iff.mpr hno, href]
    simp [assignment]
  · obtain ⟨before, e, after, heq, -, hnot, -⟩ := hfault _ hfails
    exact ⟨e, heq ▸ List.mem_append_right _ (List.mem_cons_self ..), hnot⟩

end Converter

end Marshal
