import Marshal.Proofs.Callables
import Marshal.Proofs.Layout

/-! # What built-in conversions print

An emission that succeeds comes to printing one text, the same on every writer with the same unit. A value
from the runtime is converted in one piece, whatever conversions it is part of, so that the arguments inside a
wrapper are printed as they are on their own. -/

namespace Marshal

namespace Emission
variable {e : Emission Unit} {f : Unit → Emission Unit} {unit a b : String}

/-- The emission succeeds, and comes to printing the text on every writer with this unit. -/
structure Prints (e : Emission Unit) (unit text : String) : Prop where
  result : e.result = .ok ()
  run : ∀ w : Writer, w.unit = unit → w.run e.steps = w.print text

theorem result_bind_eq_ok : (e >>= f).result = .ok () ↔ e.result = .ok () ∧ (f ()).result = .ok () := by
  rw [result_bind]
  cases e.result with
  | error x => exact ⟨fun h => (nomatch h), fun h => (nomatch h.1)⟩
  | ok _ => exact ⟨fun h => ⟨rfl, h⟩, fun h => h.2⟩

theorem steps_bind (h : e.result = .ok ()) : (e >>= f).steps = e.steps ++ (f ()).steps := by
  obtain ⟨steps, result⟩ := e
  cases h
  rfl

theorem prints_print (unit text : String) : (print text).Prints unit text := ⟨rfl, fun _ _ => rfl⟩

theorem prints_printLine (unit text : String) : (printLine text).Prints unit (text ++ "\n") :=
  ⟨rfl, fun w _ => (w.print_append text "\n").symm⟩

theorem prints_pure (unit : String) : (pure () : Emission Unit).Prints unit "" := ⟨rfl, fun w _ => w.print_empty.symm⟩

theorem Prints.bind (he : e.Prints unit a) (hf : (f ()).Prints unit b) : (e >>= f).Prints unit (a ++ b) where
  result := by
    rw [result_bind, he.result]
    exact hf.result
  run w hw := by
    rw [steps_bind he.result, Writer.run_append, he.run w hw, hf.run (w.print a) hw, Writer.print_append]

theorem Prints.toText (h : e.Prints unit a) : e.toText unit = .ok a := by
  have htext : (({ unit := unit } : Writer).run e.steps).text = a := by
    rw [h.run _ rfl, Writer.text_print_new]
  rw [Emission.toText, h.result, ← htext]
  rfl

theorem Prints.transact (h : e.Prints unit a) {w : Writer} (hw : w.unit = unit) :
    w.transact e = some (.ok (), w.print a) := by
  rw [w.transact_eq, attempt_of_ok h.result, Writer.emit, h.result, h.run w hw]

/-- What is printed on new lines one level deeper is the same text one unit further in. -/
theorem Prints.indented (hu : OneLine unit) (h : e.Prints unit a) {w : Writer} (hw : w.unit = unit)
    (hs : w.atLineStart = true) : (w.indent.run e.steps).outdent = w.print (Writer.indented unit a) := by
  subst hw
  rw [h.run w.indent rfl]
  exact Writer.outdent_print_indent hu hs a

theorem result_of_toText (h : e.toText unit = .ok a) : e.result = .ok () := by
  obtain ⟨_, h, -⟩ := Traversal.map_eq_ok.mp h
  exact h

theorem toText_of_result (h : e.result = .ok ()) (unit : String) : ∃ text, e.toText unit = .ok text :=
  ⟨_, Traversal.map_eq_ok.mpr ⟨(), h, rfl⟩⟩

end Emission

/-! ### Wrappers -/

namespace RuntimeFunction
open Emission
variable {nest : Nesting} {unit : String}

/-- What a method is called by: its reference, through the receiver unless it is static. -/
def callee (receiver : String) (owner : ClassDecl) (m : Method) : String :=
  (if m.isStatic then "" else receiver ++ ".") ++ methodReference owner m

/-- The wrapper around converted arguments, which stand two units further in than the call. -/
def wrapperText (unit : String) (formals : List String) (callee arguments : String) : String :=
  "function(" ++ ", ".intercalate formals ++ ") \x7b\n" ++
    Writer.indented unit ("return " ++ callee ++ "(\n" ++
      Writer.indented unit (Writer.indented unit arguments) ++ ");\n") ++ "\x7d"

theorem prints_arguments {own : HostType × String → Except ConversionError String} {args : List (HostType × String)}
    {texts : List String} (hn : ∀ a ∈ args, ∀ text, own a = .ok text → (nest a.1 a.2 .fromRuntime).Prints unit text)
    (h : args.mapM own = .ok texts) : (arguments nest args).Prints unit (", \n".intercalate texts) := by
  induction args generalizing texts with
  | nil =>
    cases h
    exact prints_pure unit
  | cons a more ih =>
    obtain ⟨text, rest, ha, hmore, rfl⟩ := Traversal.mapM_cons_eq_ok.mp h
    have hfirst := hn a (List.mem_cons_self ..) text ha
    have htail := ih (fun b hb => hn b (List.mem_cons_of_mem _ hb)) hmore
    cases more with
    | nil =>
      cases hmore
      exact hfirst
    | cons b more =>
      obtain ⟨text', rest', -, -, rfl⟩ := Traversal.mapM_cons_eq_ok.mp hmore
      rw [String.intercalate_cons_cons, String.append_assoc]
      exact hfirst.bind ((prints_printLine unit ", ").bind htail)

/-- What a wrapper writes before its arguments: its parameters, and the method that it calls. -/
def opening (s : Settings) (receiver : String) (owner : ClassDecl) (m : Method) : List Writer.Step :=
  [.print ("function(" ++ ", ".intercalate (formals s m) ++ ") \x7b"), .print "\n", .indent, .print "return "] ++
    (if m.isStatic then [] else [.print (receiver ++ ".")]) ++
    [.print (methodReference owner m ++ "("), .print "\n"]

theorem steps_wrapper {s : Settings} {owner : ClassDecl} {m : Method}
    (h : (arguments nest (m.paramTypes.zip (formals s m))).result = .ok ()) (receiver : String) :
    (wrapper s nest receiver owner m).steps =
      opening s receiver owner m ++ [.indent, .indent] ++ (arguments nest (m.paramTypes.zip (formals s m))).steps ++
        [.outdent, .outdent, .print ");", .print "\n", .outdent, .print "\x7d"] := by
  unfold wrapper opening
  generalize arguments nest (m.paramTypes.zip (formals s m)) = e at h
  obtain ⟨steps, result⟩ := e
  cases h
  cases m.isStatic with
  | true => rfl
  | false => rfl

theorem run_opening (s : Settings) (receiver : String) (owner : ClassDecl) (m : Method) (w : Writer) :
    w.run (opening s receiver owner m) =
      (w.print ("function(" ++ ", ".intercalate (formals s m) ++ ") \x7b\n")).indent.print
        ("return " ++ callee receiver owner m ++ "(\n") := by
  have hheader : ") \x7b\n" = ") \x7b" ++ "\n" := rfl
  have hcall : "(\n" = "(" ++ "\n" := rfl
  unfold opening callee
  rw [hheader, hcall]
  cases m.isStatic with
  | true =>
    show (((((w.print _).print "\n").indent.print "return ").print _).print "\n") = _
    simp only [← Writer.print_append, String.append_assoc, if_true, String.empty_append]
  | false =>
    show ((((((w.print _).print "\n").indent.print "return ").print _).print _).print "\n") = _
    simp only [← Writer.print_append, String.append_assoc, Bool.false_eq_true, if_false]

theorem prints_wrapper {s : Settings} {receiver text : String} {owner : ClassDecl} {m : Method} (hu : OneLine unit)
    (ha : (arguments nest (m.paramTypes.zip (formals s m))).Prints unit text) :
    (wrapper s nest receiver owner m).Prints unit
      (wrapperText unit (formals s m) (callee receiver owner m) text) where
  result := by rw [result_wrapper, ha.result]
  run w hw := by
    subst hw
    rw [steps_wrapper ha.result, Writer.run_append, Writer.run_append, Writer.run_append, run_opening]
    -- Both the body and the arguments in it begin on a new line.
    have hbody : (w.print ("function(" ++ ", ".intercalate (formals s m) ++ ") \x7b\n")).atLineStart = true := by
      rw [Writer.print_append]
      rfl
    generalize hv : w.print _ = v at hbody ⊢
    have hunit : v.unit = w.unit := by rw [← hv]; rfl
    generalize hcall : "return " ++ callee receiver owner m ++ "(\n" = call
    have hargs : (v.indent.print call).atLineStart = true := by
      rw [← hcall, Writer.print_append]
      rfl
    have harguments : ((v.indent.print call).indent.indent.run
        (arguments nest (m.paramTypes.zip (formals s m))).steps).outdent.outdent =
          (v.indent.print call).print (Writer.indented w.unit (Writer.indented w.unit text)) := by
      rw [ha.indented hu (w := (v.indent.print call).indent) hunit hargs]
      exact (prints_print _ _).indented hu hunit hargs
    show (((((v.indent.print call).indent.indent.run _).outdent.outdent.print ");").print "\n").outdent.print
      "\x7d") = _
    rw [harguments, ← Writer.print_append, ← Writer.print_append, ← Writer.print_append]
    refine (congrArg (·.print "\x7d") ((prints_print _ _).indented hu hunit hbody)).trans ?_
    rw [← hv, ← Writer.print_append, ← Writer.print_append, ← hcall]
    congr 1
    simp only [wrapperText, String.append_assoc]
    rfl

section
variable {k : Converter} {cat : Catalog} {m : Method}

theorem function_of_direct (h : isDirect k cat m = .ok true) (receiver : String) (owner : ClassDecl) :
    function k cat nest receiver owner m = .print (methodReference owner m) := by
  rw [function, h]
  rfl

theorem function_of_not_direct (h : isDirect k cat m = .ok false) (receiver : String) (owner : ClassDecl) :
    function k cat nest receiver owner m = wrapper k.settings nest receiver owner m := by
  rw [function, h]
  rfl

end

end RuntimeFunction

/-! ### Values from the runtime -/

/-- A host value by the back reference of its handle, or made from the handle by the factory. -/
def Factory.call (f : Factory) (s : Settings) (name : String) : String :=
  name ++ "." ++ s.members.backReference ++ " || " ++ f.member.reference ++ "(" ++ f.signature ++ ")(" ++ name ++ ")"

/-- A factory under the default conventions. -/
def factoryOf (source : String) : Method :=
  { name := "createPeer", params := [⟨"handle", .named RuntimeType.handle⟩], returns := .named source
    modifiers := { isStatic := true } }

theorem Conversion.of_nested {cat : Catalog} {s : Settings} {c inner : Conversion} {t : HostType} {name : String}
    (h : c.nested cat s t name = .ok inner) : inner.type = t ∧ inner.name = name := by
  unfold nested at h
  split at h
  · cases h
  · cases h
    exact ⟨rfl, rfl⟩

namespace Converter
variable {cat₀ cat : Catalog} {s : Settings}

theorem emission_fromRuntime (c : Conversion) :
    (builtIn cat₀ s).emission cat c .fromRuntime = (builtIn cat₀ s).emission cat ⟨c.type, c.name, []⟩ .fromRuntime := by
  cases hs : (builtIn cat₀ s).select cat c.type with
  | error x => rw [emission_of_select_error hs, emission_of_select_error (c := ⟨c.type, c.name, []⟩) hs]
  | ok st =>
    rw [emission_of_select hs, emission_of_select (c := ⟨c.type, c.name, []⟩) hs]
    cases st with
    | identity => rfl
    | callable => rfl
    | peering index => rfl
    | custom cs => exact absurd hs not_custom_of_select

/-- It is the value itself, or the call of a factory. -/
theorem print_of_fromRuntime {c : Conversion} (h : ((builtIn cat₀ s).emission cat c .fromRuntime).result = .ok ()) :
    ∃ text, (builtIn cat₀ s).emission cat c .fromRuntime = .print text ∧
      (text = c.name ∨
        ∃ f, ((PeerIndex.ofCatalog cat₀ s).of? c.type).bind (·.factory) = some f ∧ text = f.call s c.name) := by
  cases hs : (builtIn cat₀ s).select cat c.type with
  | error x =>
    rw [emission_of_select_error hs] at h
    cases h
  | ok st =>
    rw [emission_of_select hs] at h ⊢
    cases st with
    | identity => exact ⟨c.name, rfl, Or.inl rfl⟩
    | callable => cases h
    | peering index =>
      obtain rfl : index = PeerIndex.ofCatalog cat₀ s := by simpa [builtIn] using mem_of_select hs
      simp only [emissionOf_peering, Strategy.emitPeer] at h ⊢
      cases hf : ((PeerIndex.ofCatalog cat₀ s).of? c.type).bind (·.factory) with
      | none =>
        rw [hf] at h
        cases h
      | some f =>
        rw [hf] at h
        simp only at h ⊢
        split at h
        · next ha => exact ⟨f.call s c.name, if_pos ha, Or.inr ⟨f, rfl, rfl⟩⟩
        · cases h
    | custom cs => exact absurd hs not_custom_of_select

section
variable {t : HostType} {name text : String}

/-- The conversion writes exactly this text, whatever writer it writes to. -/
def Yields (k : Converter) (cat : Catalog) (d : Direction) (t : HostType) (name text : String) : Prop :=
  ∀ w : Writer, k.convert cat d t name w = some (.ok (), w.print text)

theorem yields_of_print {d : Direction} (h : (builtIn cat₀ s).emission cat ⟨t, name, []⟩ d = .print text) :
    (builtIn cat₀ s).Yields cat d t name text := by
  intro w
  rw [convert, h]
  exact (Emission.prints_print w.unit text).transact rfl

theorem convertToText_of_print {d : Direction} (h : (builtIn cat₀ s).emission cat ⟨t, name, []⟩ d = .print text) :
    (builtIn cat₀ s).convertToText cat d t name = .ok text := by
  rw [convertToText, h]
  exact (Emission.prints_print _ text).toText

theorem text_of_fromRuntime (h : (builtIn cat₀ s).convertToText cat .fromRuntime t name = .ok text) :
    text = name ∨ ∃ f, ((PeerIndex.ofCatalog cat₀ s).of? t).bind (·.factory) = some f ∧ text = f.call s name := by
  obtain ⟨text', he, htext⟩ := print_of_fromRuntime (Emission.result_of_toText h)
  rw [convertToText_of_print he] at h
  cases h
  exact htext

/-- A part is printed inside the conversion as it is on its own. -/
theorem print_of_nest {c : Conversion} (h : ((builtIn cat₀ s).nest cat c t name .fromRuntime).result = .ok ()) :
    ∃ text, (builtIn cat₀ s).convertToText cat .fromRuntime t name = .ok text ∧
      (builtIn cat₀ s).nest cat c t name .fromRuntime = .print text := by
  rw [result_nest] at h
  unfold nest
  cases hc : c.nested cat (builtIn cat₀ s).settings t name with
  | error x =>
    rw [hc] at h
    cases h
  | ok inner =>
    rw [hc] at h
    have h : ((builtIn cat₀ s).emission cat inner .fromRuntime).result = .ok () := h
    obtain ⟨rfl, rfl⟩ := Conversion.of_nested hc
    rw [Emission.ofExcept_ok_bind, emission_fromRuntime]
    rw [emission_fromRuntime] at h
    obtain ⟨text, he, -⟩ := print_of_fromRuntime h
    exact ⟨text, convertToText_of_print he, he⟩

end

end Converter

end Marshal
