import Marshal.Proofs.FunctionTexts

/-! # Conversions for any name

What a built-in conversion writes depends on the name of the value in one way only: the name itself stands at
fixed places of a fixed text. To see this, the writers for all names are followed together. They differ in their
texts only, as long as the name is printed in the middle of a line, where nothing is put before it; and they do
so wherever the unit or the conventional names have line breaks of their own. The conversions of the arguments
inside a wrapper have names of their own and are the same for all of them. -/

namespace Marshal

/-! ### Segments joined by a name -/

theorem intercalate_concat {segments : List String} (hne : segments ≠ []) (name last : String) :
    name.intercalate (segments ++ [last]) = name.intercalate segments ++ name ++ last := by
  rw [String.intercalate_append_of_ne_nil hne (List.cons_ne_nil _ _), String.intercalate_singleton]

/-- What is written behind the segments becomes part of the last one, whatever the name is. -/
theorem exists_intercalate_append {segments : List String} (hne : segments ≠ []) (text : String) :
    ∃ segments' : List String, segments' ≠ [] ∧
      ∀ name : String, name.intercalate segments ++ text = name.intercalate segments' := by
  rcases List.eq_nil_or_concat' segments with hnil | ⟨init, last, rfl⟩
  · exact absurd hnil hne
  · refine ⟨init ++ [last ++ text], by simp, fun name => ?_⟩
    by_cases hinit : init = []
    · simp [hinit]
    · rw [intercalate_concat hinit, intercalate_concat hinit, String.append_assoc]

namespace Writer

/-- The writers for the names without line breaks differ in their texts only, which are the same segments joined by
    the name. All of them are at the start of a line, or none is. -/
def Joined (family : String → Writer) (atLineStart : Bool) : Prop :=
  ∃ segments : List String, segments ≠ [] ∧ ∃ unit level, ∀ name, OneLine name →
    family name = ⟨name.intercalate segments, unit, level, atLineStart⟩

theorem lineStartAfter_false_of_oneLine {line : List Char} (h : '\n' ∉ line) : lineStartAfter false line = false := by
  by_cases hne : line = []
  · rw [hne]
    rfl
  · exact lineStartAfter_of_oneLine h hne false

theorem lineStartAfter_eq_false {cs : List Char} (h : lineStartAfter true cs = false) (start : Bool) :
    lineStartAfter start cs = false := by
  cases cs with
  | nil => cases h
  | cons c cs => exact h

/-- Inside a line a name is printed as it is, and what follows is on the same line. -/
theorem print_oneLine {w : Writer} (hw : w.atLineStart = false) {line : String} (h : OneLine line) :
    w.print line = { w with text := w.text ++ line } := by
  rw [print, hw, layout_false_of_oneLine h, lineStartAfter_false_of_oneLine h, String.ofList_toList, ← hw]

namespace Joined
variable {family : String → Writer} {start : Bool}

theorem const (w : Writer) : Joined (fun _ => w) w.atLineStart :=
  ⟨[w.text], List.cons_ne_nil _ _, w.unit, w.level, fun name _ => by rw [String.intercalate_singleton]⟩

theorem print (h : Joined family start) (text : String) :
    Joined (fun name => (family name).print text) (lineStartAfter start text.toList) := by
  obtain ⟨segments, hne, unit, level, hfamily⟩ := h
  -- The padding is the same for all of them, and so is what is written.
  let added := String.ofList (layout (List.replicate level unit.toList).flatten start text.toList)
  obtain ⟨segments', hne', hadded⟩ := exists_intercalate_append hne added
  refine ⟨segments', hne', unit, level, fun name hname => ?_⟩
  show (family name).print text = _
  rw [hfamily name hname, ← hadded]
  rfl

theorem print_name (h : Joined family false) : Joined (fun name => (family name).print name) false := by
  obtain ⟨segments, hne, unit, level, hfamily⟩ := h
  refine ⟨segments ++ [""], List.append_ne_nil_of_left_ne_nil hne _, unit, level, fun name hname => ?_⟩
  show (family name).print name = _
  rw [hfamily name hname, print_oneLine rfl hname, intercalate_concat hne, String.append_empty]

/-- After a piece that does not end with a line break, none of the writers is at the start of a line. -/
theorem print_piece (h : Joined family start) (text piece : String)
    (hpiece : lineStartAfter true piece.toList = false) :
    Joined (fun name => (family name).print (text ++ piece)) false := by
  have hprint := h.print (text ++ piece)
  rwa [String.toList_append, lineStartAfter_append, lineStartAfter_eq_false hpiece] at hprint

theorem apply (h : Joined family start) (s : Step) : ∃ start', Joined (fun name => (family name).apply s) start' := by
  cases s with
  | print text => exact ⟨_, h.print text⟩
  | indent =>
    obtain ⟨segments, hne, unit, level, hfamily⟩ := h
    exact ⟨start, segments, hne, unit, level + 1, fun name hname => congrArg indent (hfamily name hname)⟩
  | outdent =>
    obtain ⟨segments, hne, unit, level, hfamily⟩ := h
    exact ⟨start, segments, hne, unit, level - 1, fun name hname => congrArg outdent (hfamily name hname)⟩

/-- Steps that are the same for all names. -/
theorem run (h : Joined family start) (steps : List Step) :
    ∃ start', Joined (fun name => (family name).run steps) start' := by
  induction steps generalizing family start with
  | nil => exact ⟨start, h⟩
  | cons s steps ih =>
    obtain ⟨_, hstep⟩ := h.apply s
    exact ih hstep

end Joined

end Writer

/-! ### Functions -/

namespace RuntimeFunction
open Writer
variable {k : Converter} {cat : Catalog} {nest : Nesting} {family : String → Writer} {start : Bool}

/-- The receiver is printed after the keyword, in the middle of a line. -/
theorem joined_opening (h : Joined family start) (s : Settings) (owner : ClassDecl) (m : Method) :
    ∃ start', Joined (fun name => (family name).run (opening s name owner m)) start' := by
  cases hstatic : m.isStatic with
  | true =>
    simp only [opening, hstatic, if_true]
    exact h.run _
  | false =>
    obtain ⟨_, hheader⟩ := h.run
      [.print ("function(" ++ ", ".intercalate (formals s m) ++ ") \x7b"), .print "\n", .indent]
    have hreceiver := ((hheader.print_piece "" "return " rfl).print_name).print "."
    obtain ⟨start', hcall⟩ := hreceiver.run [.print (methodReference owner m ++ "("), .print "\n"]
    refine ⟨start', ?_⟩
    convert hcall using 2 with name
    simp only [opening, hstatic, Bool.false_eq_true, if_false, run_append]
    show ((((((family name).print _).print "\n").indent.print "return ").print (name ++ ".")).print _).print "\n" = _
    rw [print_append _ name ".", String.empty_append]
    rfl

/-- The arguments do not see the receiver. -/
theorem joined_function (h : Joined family start) (owner : ClassDecl) (m : Method)
    (hok : ∀ name, (function k cat nest name owner m).result = .ok ()) :
    ∃ start', Joined (fun name => (family name).run (function k cat nest name owner m).steps) start' := by
  cases hdirect : isDirect k cat m with
  | error x =>
    have hfails := hok ""
    rw [result_function, hdirect] at hfails
    cases hfails
  | ok direct =>
    cases direct with
    | true =>
      simp only [function_of_direct hdirect]
      exact h.run _
    | false =>
      have harguments : (arguments nest (m.paramTypes.zip (formals k.settings m))).result = .ok () := by
        rw [← result_wrapper k.settings "" owner m, ← function_of_not_direct hdirect]
        exact hok ""
      obtain ⟨_, hopening⟩ := joined_opening h k.settings owner m
      simp only [function_of_not_direct hdirect, steps_wrapper harguments, List.append_assoc,
        run_append _ (opening _ _ _ _)]
      exact hopening.run _

end RuntimeFunction

/-! ### Conversions -/

/-- What decides whether a callable can be converted does not see its name. -/
theorem Strategy.result_emitCallable_name (k : Converter) (cat : Catalog) (nest : Nesting) (t : HostType)
    (enclosing : List Fingerprint) (name own : String) :
    (emitCallable k cat nest ⟨t, name, enclosing⟩ .toRuntime).result =
      (emitCallable k cat nest ⟨t, own, enclosing⟩ .toRuntime).result := by
  unfold emitCallable
  cases cat.declOf? t with
  | none => rfl
  | some decl =>
    by_cases hid : decl.id = .ofName k.settings.types.callable
    · simp only [if_pos hid, Emission.result_bind]
      rfl
    · simp only [if_neg hid, Emission.result_bind, RuntimeFunction.result_function]
      rfl

/-- A peer is reached by the name in one piece, or not at all. -/
theorem Strategy.emitPeer_parametric (k : Converter) (cat : Catalog) (index : PeerIndex) (t : HostType)
    (d : Direction) :
    (∃ x, ∀ name, emitPeer k cat index ⟨t, name, []⟩ d = .fail x) ∨
      ∃ segments : List String, ∀ name, emitPeer k cat index ⟨t, name, []⟩ d = .print (name.intercalate segments) := by
  cases d with
  | toRuntime =>
    cases hfield : (index.of? t).bind (·.peerField) with
    | none =>
      refine Or.inl ⟨.missingConvention t.source .peerField k.settings.members.peerField, fun name => ?_⟩
      simp only [emitPeer, emitPeer.missing, hfield]
    | some field =>
      refine Or.inr ⟨["", "." ++ field.reference], fun name => ?_⟩
      simp [emitPeer, hfield, String.intercalate_cons_cons, String.append_assoc]
  | fromRuntime =>
    cases hfactory : (index.of? t).bind (·.factory) with
    | none =>
      refine Or.inl ⟨.missingConvention t.source .factoryMethod k.settings.members.factoryMethod, fun name => ?_⟩
      simp only [emitPeer, emitPeer.missing, hfactory]
    | some f =>
      cases hassign : cat.assignable f.returns t with
      | false =>
        refine Or.inl ⟨.missingConvention t.source .factoryMethod k.settings.members.factoryMethod, fun name => ?_⟩
        simp [emitPeer, emitPeer.missing, hfactory, hassign]
      | true =>
        refine Or.inr ⟨["", "." ++ k.settings.members.backReference ++ " || " ++ f.member.reference ++ "(" ++
          f.signature ++ ")(", ")"], fun name => ?_⟩
        simp [emitPeer, hfactory, hassign, String.intercalate_cons_cons, String.append_assoc]
  | extractor =>
    cases hextractor : (index.of? t).bind (·.extractor) with
    | none =>
      refine Or.inl ⟨.missingConvention t.source .extractorField k.settings.members.extractorField, fun name => ?_⟩
      simp only [emitPeer, emitPeer.missing, hextractor]
    | some field =>
      refine Or.inr ⟨[field.reference], fun name => ?_⟩
      simp [emitPeer, hextractor]

namespace Converter
open Writer
variable {cat₀ cat : Catalog} {s : Settings} {t : HostType}

theorem convertToText_of_fail {k : Converter} {d : Direction} {name : String} {x : ConversionError}
    (h : (k.emission cat ⟨t, name, []⟩ d).result = .error x) : k.convertToText cat d t name = .error x := by
  rw [convertToText, Emission.toText, h]
  rfl

/-- The property of a callable is printed behind an opening parenthesis, and again behind another one. -/
theorem joined_cacheSlot (s : Settings) (unit : String) :
    Joined (fun name => ({ unit := unit } : Writer).print
      ("(" ++ cacheSlot s name ++ " || (" ++ cacheSlot s name ++ " = ")) false := by
  let property := ".@" ++ s.types.callable ++ "::" ++ s.members.exportedFunction
  have hfirst := ((Joined.const { unit := unit }).print_piece "" "(" rfl).print_name
  have hsecond := (hfirst.print_piece property " || (" rfl).print_name
  have hslots := hsecond.print_piece property " = " rfl
  convert hslots using 2 with name
  simp only [← print_append]
  congr 1
  simp only [cacheSlot, property, String.append_assoc, String.empty_append]

theorem result_callable_name (ht : (builtIn cat₀ s).select cat t = .ok .callable) (name own : String) :
    ((builtIn cat₀ s).emission cat ⟨t, name, []⟩ .toRuntime).result =
      ((builtIn cat₀ s).emission cat ⟨t, own, []⟩ .toRuntime).result := by
  rw [emission_of_select ht, emission_of_select ht, emissionOf_callable, emissionOf_callable]
  exact Strategy.result_emitCallable_name _ _ _ t [] name own

/-- A callable that is converted for one name is converted for all of them, to segments joined by the name. -/
theorem segments_of_toRuntime (ht : (builtIn cat₀ s).select cat t = .ok .callable)
    (hok : ∀ name, ((builtIn cat₀ s).emission cat ⟨t, name, []⟩ .toRuntime).result = .ok ()) :
    ∃ segments : List String, ∀ name, OneLine name →
      (builtIn cat₀ s).convertToText cat .toRuntime t name = .ok (name.intercalate segments) := by
  obtain ⟨decl, m, hdecl, hid, hm⟩ := method_of_toRuntime_ok ht (hok "")
  -- The conversions inside know the type of the whole, and not its name.
  have hnest : ∀ name, (builtIn cat₀ s).nest cat ⟨t, name, []⟩ = (builtIn cat₀ s).nest cat ⟨t, "", []⟩ := fun _ => rfl
  have hfunction : ∀ name, (RuntimeFunction.function (builtIn cat₀ s) cat ((builtIn cat₀ s).nest cat ⟨t, "", []⟩)
      name decl m).result = .ok () := fun name => hnest name ▸ result_function_of_toRuntime ht hdecl hid hm (hok name)
  obtain ⟨_, hjoined⟩ := RuntimeFunction.joined_function (joined_cacheSlot s s.indentUnit) decl m hfunction
  obtain ⟨segments, -, unit, level, htext⟩ := hjoined.print "))"
  refine ⟨segments, fun name hname => ?_⟩
  rw [convertToText, Emission.toText, hok]
  refine congrArg Except.ok ?_
  rw [emission_toRuntime ht hdecl hid hm, hnest, Emission.steps_bind rfl, Emission.steps_bind (hfunction name),
    run_append, run_append]
  exact congrArg Writer.text (htext name hname)

theorem convertToText_callable (ht : (builtIn cat₀ s).select cat t = .ok .callable) :
    (∃ x, ∀ name, (builtIn cat₀ s).convertToText cat .toRuntime t name = .error x) ∨
      ∃ segments : List String,
        (∀ name, OneLine name →
          (builtIn cat₀ s).convertToText cat .toRuntime t name = .ok (name.intercalate segments)) ∧
        ∀ name, ∃ text, (builtIn cat₀ s).convertToText cat .toRuntime t name = .ok text := by
  cases hr : ((builtIn cat₀ s).emission cat ⟨t, "", []⟩ .toRuntime).result with
  | error x => exact Or.inl ⟨x, fun name => convertToText_of_fail ((result_callable_name ht name "").trans hr)⟩
  | ok _ =>
    have hok : ∀ name, ((builtIn cat₀ s).emission cat ⟨t, name, []⟩ .toRuntime).result = .ok () :=
      fun name => (result_callable_name ht name "").trans hr
    obtain ⟨segments, hsegments⟩ := segments_of_toRuntime ht hok
    exact Or.inr ⟨segments, hsegments, fun name => Emission.toText_of_result (hok name) _⟩

/-- All other conversions are printed at the lowest level in one piece, so that any name can stand in them. -/
theorem convertToText_in_one_piece {st : Strategy} (ht : (builtIn cat₀ s).select cat t = .ok st) {d : Direction}
    (hd : st = .callable → d ≠ .toRuntime) :
    (∃ x, ∀ name, (builtIn cat₀ s).convertToText cat d t name = .error x) ∨
      ∃ segments : List String,
        ∀ name, (builtIn cat₀ s).convertToText cat d t name = .ok (name.intercalate segments) := by
  have hemission := fun name => emission_of_select (c := ⟨t, name, []⟩) (d := d) ht
  cases st with
  | identity =>
    cases d with
    | extractor =>
      refine Or.inl ⟨.disallowedDirection t.source .extractor Strategy.identity.name, fun name => ?_⟩
      exact convertToText_of_fail (congrArg Emission.result (hemission name))
    | toRuntime =>
      refine Or.inr ⟨["", ""], fun name => ?_⟩
      rw [convertToText_of_print (hemission name)]
      simp [String.intercalate_cons_cons]
    | fromRuntime =>
      refine Or.inr ⟨["", ""], fun name => ?_⟩
      rw [convertToText_of_print (hemission name)]
      simp [String.intercalate_cons_cons]
  | callable =>
    cases d with
    | toRuntime => exact absurd rfl (hd rfl)
    | fromRuntime =>
      refine Or.inl ⟨.disallowedDirection t.source .fromRuntime Strategy.callable.name, fun name => ?_⟩
      exact convertToText_of_fail (congrArg Emission.result (hemission name))
    | extractor =>
      refine Or.inl ⟨.disallowedDirection t.source .extractor Strategy.callable.name, fun name => ?_⟩
      exact convertToText_of_fail (congrArg Emission.result (hemission name))
  | peering index =>
    rcases Strategy.emitPeer_parametric (builtIn cat₀ s) cat index t d with ⟨x, hx⟩ | ⟨segments, hsegments⟩
    · refine Or.inl ⟨x, fun name => convertToText_of_fail ?_⟩
      rw [hemission, emissionOf_peering, hx]
      rfl
    · exact Or.inr ⟨segments, fun name => convertToText_of_print ((hemission name).trans (hsegments name))⟩
  | custom cs => exact absurd ht not_custom_of_select

theorem convertToText_segments (cat₀ cat : Catalog) (s : Settings) (d : Direction) (t : HostType) :
    (∃ x, ∀ name, (builtIn cat₀ s).convertToText cat d t name = .error x) ∨
      ∃ segments : List String,
        (∀ name, OneLine name ∨ d ≠ .toRuntime →
          (builtIn cat₀ s).convertToText cat d t name = .ok (name.intercalate segments)) ∧
        ∀ name, ∃ text, (builtIn cat₀ s).convertToText cat d t name = .ok text := by
  cases hs : (builtIn cat₀ s).select cat t with
  | error x =>
    exact Or.inl ⟨x, fun name => convertToText_of_fail (congrArg Emission.result (emission_of_select_error hs))⟩
  | ok st =>
    by_cases hcallable : st = .callable ∧ d = .toRuntime
    · obtain ⟨rfl, rfl⟩ := hcallable
      refine (convertToText_callable hs).imp_right fun ⟨segments, hsegments, hok⟩ =>
        ⟨segments, fun name hname => ?_, hok⟩
      exact hsegments name (hname.resolve_right fun hne => hne rfl)
    · refine (convertToText_in_one_piece hs fun hst hd => hcallable ⟨hst, hd⟩).imp_right ?_
      rintro ⟨segments, hsegments⟩
      exact ⟨segments, fun name _ => hsegments name, fun name => ⟨_, hsegments name⟩⟩

/-- A built-in conversion fails for every name in the same way, or for none. Then its text is made of segments that do
    not depend on the name, joined by the name; names with line breaks are excepted only in conversions to the runtime.
    So the text of one can be the name of a value from the runtime, and stands in the text of the other as it is. -/
theorem convertToText_parametric (cat₀ cat : Catalog) (s : Settings) :
    (∀ d t, (∃ x, ∀ name, (builtIn cat₀ s).convertToText cat d t name = .error x) ∨
      ∃ segments : List String,
        (∀ name, OneLine name ∨ d ≠ .toRuntime →
          (builtIn cat₀ s).convertToText cat d t name = .ok (name.intercalate segments)) ∧
        ∀ name, ∃ text, (builtIn cat₀ s).convertToText cat d t name = .ok text) ∧
    ∀ t t', (∃ x, ∀ name, ((builtIn cat₀ s).convertToText cat .toRuntime t name).bind
          ((builtIn cat₀ s).convertToText cat .fromRuntime t') = .error x) ∨
      ∃ inner outer : List String, ∀ name, OneLine name →
        ((builtIn cat₀ s).convertToText cat .toRuntime t name).bind
          ((builtIn cat₀ s).convertToText cat .fromRuntime t') = .ok ((name.intercalate inner).intercalate outer) := by
  refine ⟨convertToText_segments cat₀ cat s, fun t t' => ?_⟩
  rcases convertToText_segments cat₀ cat s .toRuntime t with ⟨x, hx⟩ | ⟨inner, hinner, hok⟩
  · exact Or.inl ⟨x, fun name => by rw [hx]; rfl⟩
  · rcases convertToText_segments cat₀ cat s .fromRuntime t' with ⟨x, hx⟩ | ⟨outer, houter, -⟩
    · refine Or.inl ⟨x, fun name => ?_⟩
      obtain ⟨text, htext⟩ := hok name
      rw [htext]
      exact hx text
    · refine Or.inr ⟨inner, outer, fun name hname => ?_⟩
      rw [hinner name (Or.inl hname)]
      exact houter _ (Or.inr (by decide))

/-- A visitor by the empty name and by another one, and a number that is read from what the visitor is converted to. -/
theorem convertToText_parametric_visiting :
    (∃ segments : List String, ∀ name ∈ ["", "v"],
      (builtIn visiting {}).convertToText visiting .toRuntime (.named "demo.Visitor") name =
        .ok (name.intercalate segments)) ∧
    ∃ inner outer : List String,
      ((builtIn visiting {}).convertToText visiting .toRuntime (.named "demo.Visitor") "v").bind
          ((builtIn visiting {}).convertToText visiting .fromRuntime (.primitive .int)) =
        .ok (("v".intercalate inner).intercalate outer) := by
  obtain ⟨hsegments, hcomposed⟩ := convertToText_parametric visiting visiting {}
  obtain ⟨text, htext⟩ : ∃ text, (builtIn visiting {}).convertToText visiting .toRuntime (.named "demo.Visitor") "v" =
    .ok text := Emission.toText_of_result visiting_evaluated.2.2.2 _
  constructor
  · rcases hsegments .toRuntime (.named "demo.Visitor") with ⟨x, hx⟩ | ⟨segments, hsegments, -⟩
    · cases (hx "v").symm.trans htext
    · refine ⟨segments, fun name hname => hsegments name (Or.inl ?_)⟩
      simp only [List.mem_cons, List.not_mem_nil, or_false] at hname
      rcases hname with rfl | rfl <;> decide
  · rcases hcomposed (.named "demo.Visitor") (.primitive .int) with ⟨x, hx⟩ | ⟨inner, outer, houter⟩
    · have hfails := hx "v"
      rw [htext] at hfails
      cases hfails
    · exact ⟨inner, outer, houter "v" (by decide)⟩

end Converter

end Marshal
