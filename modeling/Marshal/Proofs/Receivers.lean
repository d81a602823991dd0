import Marshal.Proofs.FunctionTexts
import Marshal.Proofs.Transactions

/-! # Receivers of wrapped methods

The wrapper of an instance method calls it through the value that is converted, by the name that the caller of
the conversion has chosen. The names of its parameters are made from the settings alone. Nothing keeps the two
apart, so a name that is also one of the parameters means the parameter inside the wrapper. -/

namespace Marshal

namespace Emission
variable {e : Emission Unit} {f : Unit → Emission Unit}

/-- Up to success, everything that the parts write is written. -/
theorem infix_bind (h : (e >>= f).result = .ok ()) :
    e.steps <:+: (e >>= f).steps ∧ (f ()).steps <:+: (e >>= f).steps := by
  rw [steps_bind (result_bind_eq_ok.mp h).1]
  exact ⟨(List.prefix_append _ _).isInfix, (List.suffix_append _ _).isInfix⟩

end Emission

namespace RuntimeFunction
variable {k : Converter} {cat : Catalog} {nest : Nesting} {receiver : String} {owner : ClassDecl} {m : Method}

/-- An instance method is never its own function. -/
theorem opening_of_function (hstatic : m.isStatic = false)
    (h : (function k cat nest receiver owner m).result = .ok ()) :
    opening k.settings receiver owner m <:+: (function k cat nest receiver owner m).steps := by
  cases hdirect : isDirect k cat m with
  | error x =>
    rw [result_function, hdirect] at h
    cases h
  | ok direct =>
    cases direct with
    | true =>
      obtain ⟨_, _, htrue, -⟩ := isDirect_eq_true.mp hdirect
      rw [hstatic] at htrue
      cases htrue
    | false =>
      rw [function_of_not_direct hdirect] at h ⊢
      rw [result_wrapper] at h
      rw [steps_wrapper h, List.append_assoc, List.append_assoc]
      exact (List.prefix_append _ _).isInfix

end RuntimeFunction

namespace Converter
open RuntimeFunction
variable {k : Converter} {cat : Catalog} {receiver : String} {owner : ClassDecl} {m : Method}

/-- The call makes a runtime function for the method of `owner`, which is called through `receiver` unless it is
    static. -/
inductive Call.MakesFunction (k : Converter) (cat : Catalog) : Call → String → ClassDecl → Method → Prop
  | convert {t : HostType} {name : String} {decl : ClassDecl} {m : Method}
      (ht : k.select cat t = .ok .callable) (hdecl : cat.declOf? t = some decl)
      (hm : exportedMethod k.settings decl = .ok m) : MakesFunction k cat (.convert .toRuntime t name) name decl m
  | exports {c : ClassDecl} {target receiver : String} {e : Export} (he : e ∈ Export.all cat k.settings c) :
      MakesFunction k cat (.exports c target receiver) receiver e.owner e.method
  | binding {c : ClassDecl} {target receiver : String} {e : Export} (he : e ∈ Export.all cat k.settings c) :
      MakesFunction k cat (.binding c target receiver) receiver e.owner e.method

theorem opening_of_exportStatements (host : Conversion) {target : String} {es : List Export} {e : Export}
    (he : e ∈ es) (hstatic : e.method.isStatic = false)
    (h : (k.exportStatements cat host target es).result = .ok ()) :
    opening k.settings host.name e.owner e.method <:+: (k.exportStatements cat host target es).steps := by
  induction es with
  | nil => cases he
  | cons first rest ih =>
    have hassigned := Emission.result_bind_eq_ok.mp h
    have hfunction := Emission.result_bind_eq_ok.mp hassigned.2
    have hrest := Emission.result_bind_eq_ok.mp hfunction.2
    refine .trans ?_ (Emission.infix_bind h).2
    rcases List.mem_cons.mp he with rfl | he
    · exact .trans (opening_of_function hstatic hfunction.1) (Emission.infix_bind hassigned.2).1
    · refine .trans ?_ (Emission.infix_bind hassigned.2).2
      exact .trans (ih he hrest.2) (Emission.infix_bind hfunction.2).2

theorem opening_of_callable {t : HostType} {name : String} {decl : ClassDecl}
    (ht : k.select cat t = .ok .callable) (hdecl : cat.declOf? t = some decl)
    (hm : exportedMethod k.settings decl = .ok m) (hstatic : m.isStatic = false)
    (h : (k.emission cat ⟨t, name, []⟩ .toRuntime).result = .ok ()) :
    opening k.settings name decl m <:+: (k.emission cat ⟨t, name, []⟩ .toRuntime).steps := by
  have he : k.emission cat ⟨t, name, []⟩ .toRuntime =
      Strategy.emitCallable k cat (k.nest cat ⟨t, name, []⟩) ⟨t, name, []⟩ .toRuntime := by
    rw [emission_of_select ht]
    rfl
  rw [he] at h ⊢
  by_cases hid : decl.id = .ofName k.settings.types.callable
  · rw [Strategy.emitCallable_of_marker hdecl hid] at h
    cases h
  · rw [Strategy.emitCallable_of_method hdecl hid hm] at h ⊢
    have hfunction := (Emission.result_bind_eq_ok.mp h).2
    refine .trans ?_ (Emission.infix_bind h).2
    exact .trans (opening_of_function hstatic (Emission.result_bind_eq_ok.mp hfunction).1)
      (Emission.infix_bind hfunction).1

theorem opening_of_makesFunction {call : Call} (hcall : call.MakesFunction k cat receiver owner m)
    (hstatic : m.isStatic = false) (h : (call.emission k cat).result = .ok ()) :
    opening k.settings receiver owner m <:+: (call.emission k cat).steps := by
  cases hcall with
  | exports he => exact opening_of_exportStatements ⟨_, receiver, []⟩ he hstatic h
  | binding he =>
    refine .trans ?_ (Emission.infix_bind h).2
    exact opening_of_exportStatements ⟨_, receiver, []⟩ he hstatic (Emission.result_bind_eq_ok.mp h).2
  | convert ht hdecl hm => exact opening_of_callable ht hdecl hm hstatic h

/-- A call that makes the function of an instance method writes a wrapper that calls the method through the
    receiver's name. The name means a parameter of the wrapper instead exactly if it is made as their names are,
    from the common stem and a number below the number of parameters. -/
theorem receiver_captured_iff {call : Call} (hcall : call.MakesFunction k cat receiver owner m)
    (hstatic : m.isStatic = false) {w w' : Writer} (h : call.write k cat w = some (.ok (), w')) :
    ∃ steps, w' = w.run steps ∧
      [.print ("function(" ++ ", ".intercalate (formals k.settings m) ++ ") \x7b"), .print "\n", .indent,
        .print "return ", .print (receiver ++ "."), .print (methodReference owner m ++ "("), .print "\n"] <:+: steps ∧
      (receiver ∈ formals k.settings m ↔
        ∃ i < m.params.length, receiver = k.settings.members.parameterStem ++ i.repr) := by
  have hok := (call.answer_eq h).symm
  have hopening := opening_of_makesFunction hcall hstatic hok
  rw [call.write_eq, Emission.attempt_of_ok hok] at h
  refine ⟨_, (congrArg Prod.snd (Option.some.inj h)).symm, ?_, mem_formals k.settings m⟩
  unfold opening at hopening
  rw [hstatic] at hopening
  exact hopening

theorem makesFunction_listening (name : String) : Call.MakesFunction (builtIn listening {}) listening
    (.convert .toRuntime (.named "demo.Listener") name) name (callableWith "demo.Listener" heard) heard := by
  obtain ⟨⟨hplain, hcallable, hdecl, -⟩, -⟩ := listening_evaluated
  exact .convert (select_listening hplain hcallable) hdecl rfl

theorem write_listening (name : String) : ∃ w', Call.write (builtIn listening {}) listening {}
    (.convert .toRuntime (.named "demo.Listener") name) = some (.ok (), w') :=
  answers_listening name {}

/-- The wrapper of a listener known as its first parameter. -/
theorem receiver_captured_iff_listening :
    ∃ w' steps, Call.write (builtIn listening {}) listening {} (.convert .toRuntime (.named "demo.Listener") "arg0") =
        some (.ok (), w') ∧ w' = ({} : Writer).run steps ∧
      [.print ("function(" ++ ", ".intercalate (formals {} heard) ++ ") \x7b"), .print "\n", .indent, .print "return ",
        .print ("arg0" ++ "."), .print (methodReference (callableWith "demo.Listener" heard) heard ++ "("),
        .print "\n"] <:+: steps ∧
      "arg0" ∈ formals {} heard := by
  obtain ⟨w', hw⟩ := write_listening "arg0"
  obtain ⟨steps, hsteps, hopening, hiff⟩ := receiver_captured_iff (makesFunction_listening "arg0") rfl hw
  exact ⟨w', steps, hw, hsteps, hopening, hiff.mpr ⟨0, by decide, rfl⟩⟩

/-- It is not the case that a receiver is always kept apart from the parameters. -/
theorem receivers_not_kept_apart :
    ¬∀ (cat : Catalog) (s : Settings) (call : Call) (receiver : String) (owner : ClassDecl) (m : Method)
      (w w' : Writer),
      cat.Reachable → call.MakesFunction (builtIn cat s) cat receiver owner m → m.isStatic = false →
        call.write (builtIn cat s) cat w = some (.ok (), w') → receiver ∉ formals s m := by
  intro h
  obtain ⟨w', hw⟩ := write_listening "arg0"
  exact h listening {} _ "arg0" _ heard {} w' (Catalog.Reachable.runtime.declareAll _) (makesFunction_listening "arg0")
    rfl hw (by decide)

end Converter

end Marshal
