import Marshal.Converter.Emission

/-! # Emissions by cases

What an emission comes to once its first part is known, what a conversion writes once its strategy is
known, and the four ways in which the conversion of a callable to the runtime can go. -/

namespace Marshal

namespace Emission
variable {α β : Type}

@[simp] theorem ofExcept_error_bind (x : ConversionError) (f : α → Emission β) :
    (ofExcept (.error x) >>= f) = fail x := rfl

@[simp] theorem ofExcept_ok_bind (a : α) (f : α → Emission β) : (ofExcept (.ok a) >>= f) = f a := rfl

theorem result_bind (e : Emission α) (f : α → Emission β) :
    (e >>= f).result = e.result.bind fun a => (f a).result := by
  obtain ⟨steps, result⟩ := e
  cases result <;> rfl

/-- What cannot fail does not change the result. -/
theorem result_bind_of_ok (e : Emission Unit) {f : Unit → Emission Unit} (h : (f ()).result = .ok ()) :
    (e >>= f).result = e.result := by
  rw [result_bind]
  cases e.result with
  | error x => rfl
  | ok _ => exact h

@[simp] theorem result_print_bind (text : String) (f : Unit → Emission β) :
    (print text >>= f).result = (f ()).result := rfl

end Emission

theorem Conversion.depth_lt_of_nested {cat : Catalog} {s : Settings} {c inner : Conversion} {t : HostType}
    {name : String} (h : c.nested cat s t name = .ok inner) : c.depth < s.maxDepth := by
  refine Nat.lt_of_not_le fun hle => ?_
  rw [nested_of_maxDepth_le hle] at h
  cases h

namespace Converter
variable {k : Converter} {cat : Catalog} {c : Conversion} {d : Direction}

theorem emission_of_select {s : Strategy} (h : k.select cat c.type = .ok s) :
    k.emission cat c d = k.emissionOf cat s c d := by
  rw [emission_eq, h, Emission.ofExcept_ok_bind]

theorem emission_of_select_error {x : ConversionError} (h : k.select cat c.type = .error x) :
    k.emission cat c d = .fail x := by
  rw [emission_eq, h, Emission.ofExcept_error_bind]

theorem emissionOf_identity : k.emissionOf cat .identity c d = Strategy.emitIdentity c d := rfl

theorem emissionOf_callable : k.emissionOf cat .callable c d = Strategy.emitCallable k cat (k.nest cat c) c d := rfl

theorem emissionOf_peering (index : PeerIndex) :
    k.emissionOf cat (.peering index) c d = Strategy.emitPeer k cat index c d := rfl

theorem mem_of_select {t : HostType} {s : Strategy} (h : k.select cat t = .ok s) : s ∈ k.strategies := by
  unfold select at h
  split at h
  · next s' hs =>
    cases h
    exact List.mem_of_find?_eq_some hs
  · cases h

end Converter

/-- The property of a callable that keeps its function. -/
def cacheSlot (s : Settings) (name : String) : String :=
  name ++ ".@" ++ s.types.callable ++ "::" ++ s.members.exportedFunction

namespace Strategy
variable {k : Converter} {cat : Catalog} {nest : Nesting} {c : Conversion} {decl : ClassDecl}

theorem emitCallable_of_unknown (h : cat.declOf? c.type = none) :
    emitCallable k cat nest c .toRuntime = .fail (.unknownType c.type.source) := by
  simp only [emitCallable, h]

theorem emitCallable_of_marker (h : cat.declOf? c.type = some decl)
    (hid : decl.id = .ofName k.settings.types.callable) :
    emitCallable k cat nest c .toRuntime = .fail (.bareMarker decl.name.source) := by
  simp only [emitCallable, h, if_pos hid]
  rfl

theorem emitCallable_of_noMethod (h : cat.declOf? c.type = some decl)
    (hid : decl.id ≠ .ofName k.settings.types.callable) {x : ConversionError}
    (hm : exportedMethod k.settings decl = .error x) : emitCallable k cat nest c .toRuntime = .fail x := by
  simp only [emitCallable, h, if_neg hid, hm]
  rfl

theorem emitCallable_of_method (h : cat.declOf? c.type = some decl)
    (hid : decl.id ≠ .ofName k.settings.types.callable) {m : Method}
    (hm : exportedMethod k.settings decl = .ok m) :
    emitCallable k cat nest c .toRuntime = (do
      .print ("(" ++ cacheSlot k.settings c.name ++ " || (" ++ cacheSlot k.settings c.name ++ " = ")
      RuntimeFunction.function k cat nest c.name decl m
      .print "))") := by
  simp only [emitCallable, h, if_neg hid, hm]
  rfl

end Strategy

end Marshal
