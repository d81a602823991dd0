import Marshal.Export
import Marshal.Proofs.Emissions
import Marshal.Proofs.Writing

/-! # Indentation levels

The built-in strategies, the wrappers and the exports take back exactly the levels that they open, as long
as they succeed; a failure may leave any level. All levels are counted from a floor, the level that the
writing starts from: nothing is ever written below it, so that taking a level back never finds none. -/

namespace Marshal

namespace Emission
variable {α β : Type} {floor m n p : Nat}

/-- A success takes every writer from `m` to `n` levels above any level from the floor on. -/
def Moves (floor m n : Nat) (e : Emission α) : Prop :=
  ∀ a, e.result = .ok a → ∀ (w : Writer) (l : Nat), floor ≤ l → w.level = l + m → (w.run e.steps).level = l + n

def KeepsLevel (floor : Nat) (e : Emission α) : Prop :=
  ∀ a, e.result = .ok a → ∀ w : Writer, floor ≤ w.level → (w.run e.steps).level = w.level

theorem KeepsLevel.moves {e : Emission α} (h : e.KeepsLevel floor) : e.Moves floor n n := by
  intro a ha w l hl hw
  rw [h a ha w (by omega), hw]

theorem Moves.keepsLevel {e : Emission α} (h : e.Moves floor 0 0) : e.KeepsLevel floor := by
  intro a ha w hw
  exact h a ha w w.level hw rfl

theorem Moves.bind {e : Emission α} {f : α → Emission β} (he : e.Moves floor m n)
    (hf : ∀ a, e.result = .ok a → (f a).Moves floor n p) : (e >>= f).Moves floor m p := by
  obtain ⟨steps, result⟩ := e
  cases result with
  | error x =>
    intro b hb
    cases hb
  | ok a =>
    intro b hb w l hl hw
    show (w.run (steps ++ (f a).steps)).level = l + p
    rw [Writer.run_append]
    exact hf a rfl b hb _ l hl (he a rfl w l hl hw)

theorem Moves.of_steps_nil {e : Emission α} (h : e.steps = []) : e.Moves floor n n := by
  intro _ _ w _ _ hw
  rw [h]
  exact hw

theorem moves_pure (a : α) : (pure a : Emission α).Moves floor n n := .of_steps_nil rfl

theorem moves_fail (x : ConversionError) : (fail x : Emission α).Moves floor n n := .of_steps_nil rfl

theorem moves_ofExcept (r : Except ConversionError α) : (ofExcept r).Moves floor n n := .of_steps_nil rfl

theorem moves_print (text : String) : (print text).Moves floor n n := fun _ _ _ _ _ hw => hw

theorem moves_printLine (text : String) : (printLine text).Moves floor n n := fun _ _ _ _ _ hw => hw

theorem moves_indent : indent.Moves floor n (n + 1) := fun _ _ _ _ _ hw => congrArg (· + 1) hw

/-- Above the floor there is a level to take back. -/
theorem moves_outdent : outdent.Moves floor (n + 1) n := by
  intro _ _ w l _ hw
  show w.level - 1 = l + n
  omega

end Emission

/-! ### What is built in -/

section BuiltIn
open Emission
variable {cat : Catalog} {k : Converter} {nest : Nesting} {floor n : Nat}

def Nesting.KeepsLevel (floor : Nat) (nest : Nesting) : Prop := ∀ t name d, (nest t name d).KeepsLevel floor

namespace RuntimeFunction

theorem moves_arguments (hn : nest.KeepsLevel floor) (args : List (HostType × String)) :
    (arguments nest args).Moves floor n n := by
  fun_induction arguments nest args with
  | case1 => exact moves_pure ()
  | case2 t name => exact (hn t name _).moves
  | case3 t name more _ ih => exact (hn t name _).moves.bind fun _ _ => (moves_printLine _).bind fun _ _ => ih

theorem moves_wrapper (hn : nest.KeepsLevel floor) (s : Settings) (receiver : String) (owner : ClassDecl)
    (m : Method) : (wrapper s nest receiver owner m).Moves floor n n := by
  have tail : (do
      .printLine (methodReference owner m ++ "(")
      .indent
      .indent
      arguments nest (m.paramTypes.zip (formals s m))
      .outdent
      .outdent
      .printLine ");"
      .outdent
      .print "\x7d" : Emission Unit).Moves floor (n + 1) n :=
    (moves_printLine _).bind fun _ _ => moves_indent.bind fun _ _ => moves_indent.bind fun _ _ =>
      (moves_arguments hn _).bind fun _ _ => moves_outdent.bind fun _ _ => moves_outdent.bind fun _ _ =>
        (moves_printLine _).bind fun _ _ => moves_outdent.bind fun _ _ => moves_print _
  refine (moves_printLine _).bind fun _ _ => moves_indent.bind fun _ _ => (moves_print _).bind fun _ _ => ?_
  split
  · exact (moves_print _).bind fun _ _ => tail
  · exact tail

theorem moves_function (hn : nest.KeepsLevel floor) (receiver : String) (owner : ClassDecl) (m : Method) :
    (function k cat nest receiver owner m).Moves floor n n := by
  refine (moves_ofExcept _).bind fun direct _ => ?_
  cases direct with
  | true => exact moves_print _
  | false => exact moves_wrapper hn _ _ _ _

end RuntimeFunction

namespace Strategy

theorem moves_emitIdentity (c : Conversion) (d : Direction) : (emitIdentity c d).Moves floor n n := by
  cases d with
  | toRuntime => exact moves_print _
  | fromRuntime => exact moves_print _
  | extractor => exact moves_fail _

theorem moves_emitCallable (hn : nest.KeepsLevel floor) (c : Conversion) (d : Direction) :
    (emitCallable k cat nest c d).Moves floor n n := by
  cases d with
  | fromRuntime => exact moves_fail _
  | extractor => exact moves_fail _
  | toRuntime =>
    cases hd : cat.declOf? c.type with
    | none =>
      rw [emitCallable_of_unknown hd]
      exact moves_fail _
    | some decl =>
      by_cases hid : decl.id = .ofName k.settings.types.callable
      · rw [emitCallable_of_marker hd hid]
        exact moves_fail _
      · cases hm : exportedMethod k.settings decl with
        | error x =>
          rw [emitCallable_of_noMethod hd hid hm]
          exact moves_fail _
        | ok m =>
          rw [emitCallable_of_method hd hid hm]
          exact (moves_print _).bind fun _ _ => (RuntimeFunction.moves_function hn _ _ _).bind fun _ _ =>
            moves_print _

theorem moves_emitPeer (index : PeerIndex) (c : Conversion) (d : Direction) :
    (emitPeer k cat index c d).Moves floor n n := by
  have missing : ∀ convention member, (emitPeer.missing c convention member).Moves floor n n :=
    fun _ _ => moves_fail _
  cases d with
  | toRuntime =>
    simp only [emitPeer]
    split
    · exact moves_print _
    · exact missing _ _
  | fromRuntime =>
    simp only [emitPeer]
    split
    · split
      · exact moves_print _
      · exact missing _ _
    · exact missing _ _
  | extractor =>
    simp only [emitPeer]
    split
    · exact moves_print _
    · exact missing _ _

end Strategy

end BuiltIn

/-! ### All strategies -/

namespace Converter
variable {k : Converter} {cat : Catalog} {floor : Nat}

/-- The custom strategies leave the level as they find it when they succeed, as long as the conversions of
    parts do. -/
def CustomsKeepLevel (k : Converter) (cat : Catalog) (floor : Nat) : Prop :=
  ∀ s, .custom s ∈ k.strategies → ∀ c, (k.nest cat c).KeepsLevel floor → ∀ d,
    (k.emissionOf cat (.custom s) c d).KeepsLevel floor

theorem emissionOf_keepsLevel (hk : k.CustomsKeepLevel cat floor) {c : Conversion}
    (hn : (k.nest cat c).KeepsLevel floor) {s : Strategy} (hs : s ∈ k.strategies) (d : Direction) :
    (k.emissionOf cat s c d).KeepsLevel floor := by
  cases s with
  | identity => exact (Strategy.moves_emitIdentity c d).keepsLevel
  | callable => exact (Strategy.moves_emitCallable hn c d).keepsLevel
  | peering index => exact (Strategy.moves_emitPeer index c d).keepsLevel
  | custom s => exact hk s hs c hn d

theorem nest_keepsLevel (hk : k.CustomsKeepLevel cat floor) (c : Conversion) :
    (k.nest cat c).KeepsLevel floor := by
  -- By induction on the number of conversions that may still be nested.
  intro t name d
  refine Emission.Moves.keepsLevel ((Emission.moves_ofExcept _).bind fun inner hinner => ?_)
  have hi : c.nested cat k.settings t name = .ok inner := hinner
  have hdepth := Conversion.depth_of_nested hi
  have hlt := Conversion.depth_lt_of_nested hi
  have ih := nest_keepsLevel hk inner
  rw [emission_eq]
  exact (Emission.moves_ofExcept _).bind fun s hs =>
    (emissionOf_keepsLevel hk ih (mem_of_select hs) d).moves
termination_by k.settings.maxDepth - c.depth

theorem emission_keepsLevel (hk : k.CustomsKeepLevel cat floor) (c : Conversion) (d : Direction) :
    (k.emission cat c d).KeepsLevel floor := by
  rw [emission_eq]
  exact Emission.Moves.keepsLevel <| (Emission.moves_ofExcept _).bind fun s hs =>
    (emissionOf_keepsLevel hk (nest_keepsLevel hk c) (mem_of_select hs) d).moves

/-! ### Statements -/

theorem moves_exportStatements (hk : k.CustomsKeepLevel cat floor) {n : Nat} (host : Conversion) (target : String)
    (es : List Export) : (k.exportStatements cat host target es).Moves floor n n := by
  induction es with
  | nil => exact Emission.moves_pure ()
  | cons e rest ih =>
    exact (Emission.moves_print _).bind fun _ _ =>
      (RuntimeFunction.moves_function (nest_keepsLevel hk host) _ _ _).bind fun _ _ =>
        (Emission.moves_printLine _).bind fun _ _ => ih

theorem exports_keepsLevel (hk : k.CustomsKeepLevel cat floor) (c : ClassDecl) (target receiver : String) :
    (k.exports cat c target receiver).KeepsLevel floor :=
  (moves_exportStatements hk _ _ _).keepsLevel

theorem binding_keepsLevel (hk : k.CustomsKeepLevel cat floor) (c : ClassDecl) (target receiver : String) :
    (k.binding cat c target receiver).KeepsLevel floor :=
  ((Emission.moves_printLine _).bind fun _ _ => moves_exportStatements hk _ _ _).keepsLevel

theorem construction_keepsLevel (k : Converter) (floor : Nat) (c : ClassDecl) (m : Option Method) :
    (k.construction c m).KeepsLevel floor := by
  unfold construction
  split
  · exact (Emission.moves_printLine _).keepsLevel
  · exact (Emission.moves_fail _).keepsLevel

end Converter

end Marshal
