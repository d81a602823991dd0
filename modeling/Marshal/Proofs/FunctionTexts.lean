import Marshal.Proofs.Printing
import Mathlib.Data.List.Nodup
import Std.Data.String.ToNat

/-! # The text of a converted callable

A callable is converted to a property that keeps its function and that is set at the first conversion. The
function is the method itself if nothing needs to be converted, and else a wrapper with a line for each of its
parameters. -/

namespace Marshal

namespace RuntimeFunction

/-! ### Formal parameters -/

theorem oneLine_repr (n : Nat) : OneLine n.repr := by
  intro hbreak
  rw [Nat.repr_eq_ofList_toDigits, String.toList_ofList] at hbreak
  exact absurd (Nat.isDigit_of_mem_toDigits (by decide) (by decide) hbreak) (by decide)

section
variable (s : Settings) (m : Method)

theorem length_formals : (formals s m).length = m.params.length := by
  rw [formals, List.length_map, List.length_range]

theorem getElem?_formals {i : Nat} (h : i < m.params.length) :
    (formals s m)[i]? = some (s.members.parameterStem ++ i.repr) := by
  rw [formals, List.getElem?_map, List.getElem?_range h]
  rfl

theorem nodup_formals : (formals s m).Nodup := by
  refine List.Nodup.map (fun i j h => Nat.repr_inj.mp ?_) List.nodup_range
  exact (String.append_right_inj _).mp h

theorem mem_formals {name : String} :
    name ∈ formals s m ↔ ∃ i < m.params.length, name = s.members.parameterStem ++ i.repr := by
  simp only [formals, List.mem_map, List.mem_range, eq_comm]

end

/-! ### Wrappers line by line -/

/-- Each argument on a line of its own. Without arguments the call is closed on the line that they would be on. -/
def argumentLines (unit : String) : List String → String
  | [] => unit
  | arguments => ", \n".intercalate (arguments.map (unit ++ unit ++ unit ++ ·))

def wrapperLines (unit : String) (formals : List String) (callee : String) (arguments : List String) : String :=
  "function(" ++ ", ".intercalate formals ++ ") \x7b\n" ++
    unit ++ "return " ++ callee ++ "(\n" ++
    argumentLines unit arguments ++ ");\n" ++
    "\x7d"

section
variable {unit callee : String} {arguments : List String} (hu : OneLine unit)
  (ha : ∀ a ∈ arguments, OneLine a ∧ a ≠ "")
include hu ha

theorem forall_mem_indented : ∀ a ∈ arguments.map (unit ++ ·), OneLine a ∧ a ≠ "" := by
  intro a hmem
  obtain ⟨b, hb, rfl⟩ := List.mem_map.mp hmem
  obtain ⟨hline, hne⟩ := ha b hb
  exact ⟨oneLine_append.mpr ⟨hu, hline⟩, fun h => hne (String.append_eq_empty_iff.mp h).2⟩

theorem indented_arguments :
    Writer.indented unit (Writer.indented unit (Writer.indented unit (", \n".intercalate arguments)) ++ ");\n") =
      argumentLines unit arguments ++ ");\n" := by
  cases arguments with
  | nil =>
    show Writer.indented unit (");" ++ ("\n" ++ "")) = unit ++ (");" ++ ("\n" ++ ""))
    rw [Writer.indented_line (by decide) (by decide), String.append_assoc]
    rfl
  | cons a more =>
    have hne : a :: more ≠ [] := List.cons_ne_nil _ _
    have hlines : argumentLines unit (a :: more) =
        ", \n".intercalate ((a :: more).map (unit ++ unit ++ unit ++ ·)) := rfl
    rw [hlines]
    generalize a :: more = arguments at ha hne
    have hunits : arguments.map (unit ++ unit ++ unit ++ ·) =
        ((arguments.map (unit ++ ·)).map (unit ++ ·)).map (unit ++ ·) := by
      simp only [List.map_map, Function.comp_def, String.append_assoc]
    have hone := forall_mem_indented hu ha
    have htwo := forall_mem_indented hu hone
    have hne' {lines : List String} (h : lines ≠ []) : lines.map (unit ++ ·) ≠ [] := mt List.map_eq_nil_iff.mp h
    rw [Writer.indented_lines ha hne, Writer.indented_lines hone (hne' hne),
      Writer.indented_intercalate htwo (hne' (hne' hne)), hunits]
    rfl

theorem wrapperText_eq (hc : OneLine callee) (formals : List String) :
    wrapperText unit formals callee (", \n".intercalate arguments) = wrapperLines unit formals callee arguments := by
  have hline : OneLine ("return " ++ callee ++ "(") :=
    oneLine_append.mpr ⟨oneLine_append.mpr ⟨by decide, hc⟩, by decide⟩
  have hne : "return " ++ callee ++ "(" ≠ "" := by simp
  have hbreak : "(\n" = "(" ++ "\n" := rfl
  have hbody : "return " ++ callee ++ "(\n" ++
      Writer.indented unit (Writer.indented unit (", \n".intercalate arguments)) ++ ");\n" = "return " ++ callee ++ "(" ++ ("\n" ++ (Writer.indented unit (Writer.indented unit
        (", \n".intercalate arguments)) ++ ");\n")) := by
    simp only [hbreak, String.append_assoc]
  rw [wrapperText, hbody, Writer.indented_line hline hne, indented_arguments hu ha]
  delta wrapperLines
  simp only [hbreak, String.append_assoc]

end

theorem wrapperLines_ne_methodReference (unit : String) (formals : List String) (callee : String)
    (arguments : List String) (owner : ClassDecl) (m : Method) :
    wrapperLines unit formals callee arguments ≠ methodReference owner m := by
  delta wrapperLines
  intro h
  have hhead := congrArg (fun text => text.toList.head?) h
  simp [methodReference] at hhead

/-- The method can be used as it is: it is called through nothing, and its result and its parameters are the same
    on both sides. -/
def NeedsNoConversion (k : Converter) (cat : Catalog) (m : Method) : Prop :=
  m.isStatic = true ∧ k.SelectsIdentity cat m.returns ∧ ∀ p ∈ m.paramTypes, k.SelectsIdentity cat p

theorem isDirect_iff {k : Converter} {cat : Catalog} {m : Method} :
    isDirect k cat m = .ok true ↔ NeedsNoConversion k cat m := by
  rw [isDirect_eq_true]
  constructor
  · rintro ⟨st, hst, hstatic, hid, hparams⟩
    exact ⟨hstatic, ⟨st, hst, hid⟩, hparams⟩
  · rintro ⟨hstatic, ⟨st, hst, hid⟩, hparams⟩
    exact ⟨st, hst, hstatic, hid, hparams⟩

/-- How the function of a method is written: as the reference of the method, or as a wrapper line by line, with each
    argument as the conversion of the parameter is on its own. -/
inductive FunctionText (k : Converter) (cat : Catalog) (unit receiver : String) (owner : ClassDecl) (m : Method) :
    String → Prop
  | direct (h : NeedsNoConversion k cat m) : FunctionText k cat unit receiver owner m (methodReference owner m)
  | wrapped {texts : List String} (h : ¬NeedsNoConversion k cat m)
      (ht : ((m.paramTypes.zip (formals k.settings m)).mapM fun a =>
        k.convertToText cat .fromRuntime a.1 a.2) = .ok texts) :
      FunctionText k cat unit receiver owner m
        (wrapperLines unit (formals k.settings m) (callee receiver owner m) texts)

namespace FunctionText
variable {k : Converter} {cat : Catalog} {unit receiver fn : String} {owner : ClassDecl} {m : Method}

theorem eq_methodReference_iff (h : FunctionText k cat unit receiver owner m fn) :
    fn = methodReference owner m ↔ NeedsNoConversion k cat m := by
  cases h with
  | direct hno => exact ⟨fun _ => hno, fun _ => rfl⟩
  | wrapped hnot _ =>
    exact ⟨fun heq => absurd heq (wrapperLines_ne_methodReference _ _ _ _ _ _), fun hno => absurd hno hnot⟩

theorem wrapperLines (h : FunctionText k cat unit receiver owner m fn) (hnot : ¬NeedsNoConversion k cat m) :
    ∃ texts, ((m.paramTypes.zip (formals k.settings m)).mapM fun a =>
        k.convertToText cat .fromRuntime a.1 a.2) = .ok texts ∧
      fn = RuntimeFunction.wrapperLines unit (formals k.settings m) (callee receiver owner m) texts := by
  cases h with
  | direct hno => exact absurd hno hnot
  | wrapped _ ht => exact ⟨_, ht, rfl⟩

end FunctionText

/-- None of the names that the wrapper of a method is made of has a line break: those of the receiver, of the
    parameters and of the method, and those that peers are made by. -/
structure NamesOneLine (cat : Catalog) (s : Settings) (receiver : String) (owner : ClassDecl) (m : Method) : Prop where
  unit : OneLine s.indentUnit
  receiver : OneLine receiver
  parameters : OneLine s.members.parameterStem
  method : OneLine (methodReference owner m)
  backReference : OneLine s.members.backReference
  factories : ∀ p ∈ m.paramTypes, ∀ f, ((PeerIndex.ofCatalog cat s).of? p).bind (·.factory) = some f →
    OneLine f.member.reference ∧ OneLine f.signature

namespace NamesOneLine
variable {cat : Catalog} {s : Settings} {receiver : String} {owner : ClassDecl} {m : Method}
  (h : NamesOneLine cat s receiver owner m)
include h

theorem callee : OneLine (callee receiver owner m) := by
  unfold RuntimeFunction.callee
  refine oneLine_append.mpr ⟨?_, h.method⟩
  split
  · decide
  · exact oneLine_append.mpr ⟨h.receiver, by decide⟩

theorem formal {name : String} (hname : name ∈ formals s m) : OneLine name ∧ name ≠ "" := by
  obtain ⟨i, -, rfl⟩ := (mem_formals s m).mp hname
  exact ⟨oneLine_append.mpr ⟨h.parameters, oneLine_repr i⟩,
    fun hempty => Nat.repr_ne_empty (String.append_eq_empty_iff.mp hempty).2⟩

/-- So each argument, the parameter itself or the call of a factory on it, is on one line. -/
theorem argument {p : HostType} {name text : String} (hp : p ∈ m.paramTypes) (hname : name ∈ formals s m)
    (ht : text = name ∨ ∃ f, ((PeerIndex.ofCatalog cat s).of? p).bind (·.factory) = some f ∧ text = f.call s name) :
    OneLine text ∧ text ≠ "" := by
  obtain ⟨hline, hne⟩ := h.formal hname
  rcases ht with rfl | ⟨f, hf, rfl⟩
  · exact ⟨hline, hne⟩
  · obtain ⟨hreference, hsignature⟩ := h.factories p hp f hf
    refine ⟨?_, fun hempty => hne ?_⟩
    · simp only [Factory.call, oneLine_append, hline, h.backReference, hreference, hsignature, true_and, and_true]
      decide
    · simp only [Factory.call, String.append_eq_empty_iff] at hempty
      exact hempty.1.2

end NamesOneLine

end RuntimeFunction

/-! ### The callable -/

namespace Converter
open RuntimeFunction
variable {cat₀ cat : Catalog} {s : Settings} {t : HostType} {name : String} {decl : ClassDecl} {m : Method}

/-- The property of a value that keeps a function, and what it is set to at first. -/
def cachedText (s : Settings) (name fn : String) : String :=
  "(" ++ cacheSlot s name ++ " || (" ++ cacheSlot s name ++ " = " ++ fn ++ "))"

theorem emission_toRuntime (ht : (builtIn cat₀ s).select cat t = .ok .callable) (hdecl : cat.declOf? t = some decl)
    (hid : decl.id ≠ .ofName s.types.callable) (hm : exportedMethod s decl = .ok m) :
    (builtIn cat₀ s).emission cat ⟨t, name, []⟩ .toRuntime = (do
      .print ("(" ++ cacheSlot s name ++ " || (" ++ cacheSlot s name ++ " = ")
      function (builtIn cat₀ s) cat ((builtIn cat₀ s).nest cat ⟨t, name, []⟩) name decl m
      .print "))") := by
  rw [emission_of_select ht]
  exact Strategy.emitCallable_of_method (k := builtIn cat₀ s) (c := ⟨t, name, []⟩) hdecl hid hm

theorem result_function_of_toRuntime (ht : (builtIn cat₀ s).select cat t = .ok .callable)
    (hdecl : cat.declOf? t = some decl) (hid : decl.id ≠ .ofName s.types.callable) (hm : exportedMethod s decl = .ok m)
    (h : ((builtIn cat₀ s).emission cat ⟨t, name, []⟩ .toRuntime).result = .ok ()) :
    (function (builtIn cat₀ s) cat ((builtIn cat₀ s).nest cat ⟨t, name, []⟩) name decl m).result = .ok () := by
  rwa [result_toRuntime ht hdecl hid hm] at h

theorem prints_toRuntime (ht : (builtIn cat₀ s).select cat t = .ok .callable) (hdecl : cat.declOf? t = some decl)
    (hid : decl.id ≠ .ofName s.types.callable) (hm : exportedMethod s decl = .ok m) {unit fn : String}
    (hf : (function (builtIn cat₀ s) cat ((builtIn cat₀ s).nest cat ⟨t, name, []⟩) name decl m).Prints unit fn) :
    ((builtIn cat₀ s).emission cat ⟨t, name, []⟩ .toRuntime).Prints unit (cachedText s name fn) := by
  have htail : (function (builtIn cat₀ s) cat ((builtIn cat₀ s).nest cat ⟨t, name, []⟩) name decl m >>= fun _ =>
      .print "))").Prints unit (fn ++ "))") := hf.bind (Emission.prints_print unit "))")
  have htext : cachedText s name fn =
      "(" ++ cacheSlot s name ++ " || (" ++ cacheSlot s name ++ " = " ++ (fn ++ "))") := String.append_assoc
  rw [emission_toRuntime ht hdecl hid hm, htext]
  refine (Emission.prints_print unit _).bind ?_
  exact htail

/-- Inside a conversion that succeeds, the arguments are what the parameters are on their own. -/
theorem prints_arguments_nest {c : Conversion}
    (h : (arguments ((builtIn cat₀ s).nest cat c) (m.paramTypes.zip (formals s m))).result = .ok ()) :
    ∃ texts, ((m.paramTypes.zip (formals s m)).mapM fun a =>
        (builtIn cat₀ s).convertToText cat .fromRuntime a.1 a.2) = .ok texts ∧
      ∀ unit, (arguments ((builtIn cat₀ s).nest cat c) (m.paramTypes.zip (formals s m))).Prints unit
        (", \n".intercalate texts) := by
  have hnest : ∀ a ∈ m.paramTypes.zip (formals s m),
      ∃ text, (builtIn cat₀ s).convertToText cat .fromRuntime a.1 a.2 = .ok text ∧
        (builtIn cat₀ s).nest cat c a.1 a.2 .fromRuntime = .print text := by
    intro a ha
    rw [result_arguments_nest c a.2] at h
    exact print_of_nest (Traversal.forM_eq_ok.mp h a.1 (List.of_mem_zip ha).1)
  cases htexts : (m.paramTypes.zip (formals s m)).mapM fun a =>
      (builtIn cat₀ s).convertToText cat .fromRuntime a.1 a.2 with
  | error x =>
    obtain ⟨before, a, after, hsplit, -, ha⟩ := Traversal.first_of_mapM_error htexts
    obtain ⟨text, htext, -⟩ := hnest a (hsplit ▸ List.mem_append_right _ (List.mem_cons_self ..))
    rw [htext] at ha
    cases ha
  | ok texts =>
    refine ⟨texts, rfl, fun unit => prints_arguments (fun a ha text htext => ?_) htexts⟩
    obtain ⟨_, htext', hprint⟩ := hnest a ha
    rw [htext] at htext'
    cases htext'
    rw [hprint]
    exact Emission.prints_print unit text

/-- The function of a method, inside any conversion and on any writer: the method itself, or a wrapper. -/
theorem prints_method {c : Conversion} {unit receiver : String} (hu : OneLine unit)
    (h : (function (builtIn cat₀ s) cat ((builtIn cat₀ s).nest cat c) receiver decl m).result = .ok ()) :
    NeedsNoConversion (builtIn cat₀ s) cat m ∧ (function (builtIn cat₀ s) cat ((builtIn cat₀ s).nest cat c) receiver
        decl m).Prints unit (methodReference decl m) ∨
      ¬NeedsNoConversion (builtIn cat₀ s) cat m ∧
        ∃ texts, ((m.paramTypes.zip (formals s m)).mapM fun a =>
            (builtIn cat₀ s).convertToText cat .fromRuntime a.1 a.2) = .ok texts ∧
          (function (builtIn cat₀ s) cat ((builtIn cat₀ s).nest cat c) receiver decl m).Prints unit
            (wrapperText unit (formals s m) (callee receiver decl m) (", \n".intercalate texts)) := by
  cases hdirect : isDirect (builtIn cat₀ s) cat m with
  | error x =>
    rw [result_function, hdirect] at h
    cases h
  | ok direct =>
    cases direct with
    | true =>
      rw [function_of_direct hdirect]
      exact Or.inl ⟨isDirect_iff.mp hdirect, Emission.prints_print _ _⟩
    | false =>
      have hnot : ¬NeedsNoConversion (builtIn cat₀ s) cat m := fun hno => by
        rw [isDirect_iff.mpr hno] at hdirect
        cases hdirect
      rw [function_of_not_direct hdirect] at h ⊢
      rw [result_wrapper] at h
      obtain ⟨texts, htexts, hprints⟩ := prints_arguments_nest h
      exact Or.inr ⟨hnot, texts, htexts, prints_wrapper hu (hprints unit)⟩

/-- The same line by line. The unit is that of the writer, whatever the settings say. -/
theorem prints_functionText {c : Conversion} {unit receiver : String}
    (hnames : NamesOneLine cat₀ { s with indentUnit := unit } receiver decl m)
    (h : (function (builtIn cat₀ s) cat ((builtIn cat₀ s).nest cat c) receiver decl m).result = .ok ()) :
    ∃ fn, FunctionText (builtIn cat₀ s) cat unit receiver decl m fn ∧
      (function (builtIn cat₀ s) cat ((builtIn cat₀ s).nest cat c) receiver decl m).Prints unit fn := by
  rcases prints_method (c := c) hnames.unit h with ⟨hno, hprints⟩ | ⟨hnot, texts, htexts, hprints⟩
  · exact ⟨_, .direct hno, hprints⟩
  · have hlines : ∀ a ∈ texts, OneLine a ∧ a ≠ "" := by
      intro a ha
      obtain ⟨⟨p, formal⟩, hmem, ha⟩ := (Traversal.mem_of_mapM_ok htexts).mp ha
      obtain ⟨hp, hformal⟩ := List.of_mem_zip hmem
      have htext := text_of_fromRuntime ha
      exact hnames.argument hp hformal htext
    rw [wrapperText_eq hnames.unit hlines hnames.callee] at hprints
    exact ⟨_, .wrapped hnot htexts, hprints⟩

theorem prints_function {c : Conversion} {receiver : String} (hnames : NamesOneLine cat₀ s receiver decl m)
    (h : (function (builtIn cat₀ s) cat ((builtIn cat₀ s).nest cat c) receiver decl m).result = .ok ()) :
    ∃ fn, (function (builtIn cat₀ s) cat ((builtIn cat₀ s).nest cat c) receiver decl m).Prints s.indentUnit fn ∧
      (fn = methodReference decl m ↔ NeedsNoConversion (builtIn cat₀ s) cat m) ∧
      (¬NeedsNoConversion (builtIn cat₀ s) cat m →
        ∃ texts, ((m.paramTypes.zip (formals s m)).mapM fun a =>
            (builtIn cat₀ s).convertToText cat .fromRuntime a.1 a.2) = .ok texts ∧
          fn = wrapperLines s.indentUnit (formals s m) (callee receiver decl m) texts) := by
  obtain ⟨fn, hfn, hprints⟩ := prints_functionText hnames h
  exact ⟨fn, hprints, hfn.eq_methodReference_iff, hfn.wrapperLines⟩

/-- A callable that is converted to the runtime at all is written as a cache for a function expression. This is the
    reference of its method exactly if nothing needs to be converted. Otherwise it is a wrapper with one parameter
    for each parameter of the method, all of them different, that calls the method through the value unless it is
    static; the argument on each line is what the conversion of the parameter is on its own. -/
theorem callable_text (ht : (builtIn cat₀ s).select cat t = .ok .callable)
    (hnames : ∀ decl m, cat.declOf? t = some decl → exportedMethod s decl = .ok m → NamesOneLine cat₀ s name decl m)
    {text : String} (h : (builtIn cat₀ s).convertToText cat .toRuntime t name = .ok text) :
    ∃ decl m fn, cat.declOf? t = some decl ∧ exportedMethod s decl = .ok m ∧
      text = "(" ++ cacheSlot s name ++ " || (" ++ cacheSlot s name ++ " = " ++ fn ++ "))" ∧
      (fn = methodReference decl m ↔ NeedsNoConversion (builtIn cat₀ s) cat m) ∧
      (¬NeedsNoConversion (builtIn cat₀ s) cat m →
        ∃ texts, ((m.paramTypes.zip (formals s m)).mapM fun a =>
            (builtIn cat₀ s).convertToText cat .fromRuntime a.1 a.2) = .ok texts ∧
          fn = wrapperLines s.indentUnit (formals s m) (callee name decl m) texts) ∧
      (formals s m).length = m.params.length ∧ (formals s m).Nodup ∧
      ∀ i < m.params.length, (formals s m)[i]? = some (s.members.parameterStem ++ i.repr) := by
  have hok := Emission.result_of_toText h
  obtain ⟨decl, m, hdecl, hid, hm⟩ := method_of_toRuntime_ok ht hok
  obtain ⟨fn, hprints, hdirect, hwrapper⟩ :=
    prints_function (hnames decl m hdecl hm) (result_function_of_toRuntime ht hdecl hid hm hok)
  refine ⟨decl, m, fn, hdecl, hm, ?_, hdirect, hwrapper, length_formals s m, nodup_formals s m,
    fun i => getElem?_formals s m (i := i)⟩
  exact Except.ok.inj (h.symm.trans (prints_toRuntime ht hdecl hid hm hprints).toText)

def visit : Method :=
  { name := "visit", params := [⟨"node", .named "demo.Node"⟩, ⟨"depth", .primitive .int⟩] }

/-- A callable with a parameter that is a peer and one that needs no conversion. -/
def visiting : Catalog :=
  (Catalog.runtime.declareAll [
    { ClassDecl.classNamed "demo.Node" with methods := [factoryOf "demo.Node"] },
    callableWith "demo.Visitor" visit]).1

-- Stated together, so that the catalog is evaluated once.
theorem visiting_evaluated :
    (Strategy.isPlain visiting {} (.named "demo.Visitor") = false ∧
      Conversion.isCallable visiting {} (.named "demo.Visitor") = true) ∧
    visiting.declOf? (.named "demo.Visitor") = some (callableWith "demo.Visitor" visit) ∧
    ((PeerIndex.ofCatalog visiting {}).of? (.named "demo.Node")).bind (·.factory) =
      some ⟨⟨.parse "demo.Node", "createPeer"⟩, .named "demo.Node", (factoryOf "demo.Node").signature⟩ ∧
    ((builtIn visiting {}).emission visiting ⟨.named "demo.Visitor", "v", []⟩ .toRuntime).result = .ok () := by
  decide +kernel

/-- The node is taken from its handle or made by its factory, and the depth is passed on as it is. -/
theorem callable_text_visiting :
    (builtIn visiting {}).select visiting (.named "demo.Visitor") = .ok .callable ∧
      NamesOneLine visiting {} "v" (callableWith "demo.Visitor" visit) visit ∧
      ∃ text texts, (builtIn visiting {}).convertToText visiting .toRuntime (.named "demo.Visitor") "v" = .ok text ∧
        ((visit.paramTypes.zip ["arg0", "arg1"]).mapM fun a =>
          (builtIn visiting {}).convertToText visiting .fromRuntime a.1 a.2) = .ok texts ∧
        text = cachedText {} "v" (wrapperLines "  " ["arg0", "arg1"] "v.@demo.Visitor::visit(Ldemo/Node;I)" texts) := by
  obtain ⟨⟨hplain, hcallable⟩, hdecl, hfactory, hok⟩ := visiting_evaluated
  have hvisitor : (builtIn visiting {}).select visiting (.named "demo.Visitor") = .ok .callable := by
    rw [select_builtIn, hplain, hcallable]
    rfl
  have hnames : NamesOneLine visiting {} "v" (callableWith "demo.Visitor" visit) visit := by
    refine ⟨by decide, by decide, by decide, by decide +kernel, by decide, ?_⟩
    refine List.forall_mem_cons.mpr ⟨fun f hf => ?_, List.forall_mem_singleton.mpr fun f hf => (nomatch hf)⟩
    rw [hfactory] at hf
    cases hf
    decide +kernel
  have hformals : formals {} visit = ["arg0", "arg1"] := by decide +kernel
  have hcallee : callee "v" (callableWith "demo.Visitor" visit) visit = "v.@demo.Visitor::visit(Ldemo/Node;I)" := by
    decide +kernel
  refine ⟨hvisitor, hnames, ?_⟩
  have hmethod {decl : ClassDecl} {m : Method} (hd : visiting.declOf? (.named "demo.Visitor") = some decl)
      (hm : exportedMethod {} decl = .ok m) : decl = callableWith "demo.Visitor" visit ∧ m = visit := by
    rw [hdecl] at hd
    cases hd
    cases hm
    exact ⟨rfl, rfl⟩
  obtain ⟨text, htext⟩ : ∃ text, (builtIn visiting {}).convertToText visiting .toRuntime (.named "demo.Visitor") "v" =
      .ok text := Emission.toText_of_result hok _
  obtain ⟨decl, m, fn, hd, hm, hfn, -, hwrapper, -⟩ := callable_text hvisitor
    (fun decl m hd hm => by obtain ⟨rfl, rfl⟩ := hmethod hd hm; exact hnames) htext
  obtain ⟨rfl, rfl⟩ := hmethod hd hm
  obtain ⟨texts, htexts, rfl⟩ := hwrapper fun hno => nomatch hno.1
  rw [hformals] at htexts
  rw [hformals, hcallee] at hfn
  exact ⟨_, texts, htext, htexts, hfn⟩

end Converter

end Marshal
