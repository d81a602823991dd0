import Marshal.Proofs.Levels
import Marshal.Script

/-! # All or nothing

A call that writes to a writer of the caller either succeeds, and then it has added to the text and is back
on the level that it began on, or it fails, and then the writer is what it was. -/

namespace Marshal.Converter

inductive Call
  | convert (direction : Direction) (type : HostType) (name : String)
  | exports (c : ClassDecl) (target receiver : String)
  | binding (c : ClassDecl) (target receiver : String)
  | construction (c : ClassDecl) (m : Option Method)

namespace Call
variable {k : Converter} {cat : Catalog}

/-- The answer of a call and the writer that it leaves, or nothing if a failure cannot be taken back. -/
def write (k : Converter) (cat : Catalog) (w : Writer) : Call → Option (Except ConversionError Unit × Writer)
  | convert d t name => k.convert cat d t name w
  | exports c target receiver => k.writeExports cat c target receiver w
  | binding c target receiver => k.writeBinding cat c target receiver w
  | construction c m => some (k.writeConstruction c m w)

def emission (k : Converter) (cat : Catalog) : Call → Emission Unit
  | convert d t name => k.emission cat ⟨t, name, []⟩ d
  | exports c target receiver => k.exports cat c target receiver
  | binding c target receiver => k.binding cat c target receiver
  | construction c m => k.construction c m

/-- A missing constructor is the only failure that is not taken back, and nothing is written before it. -/
theorem attempt_construction (k : Converter) (c : ClassDecl) (m : Option Method) :
    (k.construction c m).attempt = k.construction c m := by
  unfold Converter.construction
  split <;> rfl

theorem write_eq (call : Call) (w : Writer) : call.write k cat w = some (w.emit (call.emission k cat).attempt) := by
  cases call with
  | convert d t name => exact w.transact_eq _
  | exports c target receiver => exact w.transact_eq _
  | binding c target receiver => exact w.transact_eq _
  | construction c m =>
    show some (w.emit (k.construction c m)) = some (w.emit (k.construction c m).attempt)
    rw [attempt_construction]

theorem answer_eq {call : Call} {w w' : Writer} {answer : Except ConversionError Unit}
    (h : call.write k cat w = some (answer, w')) : answer = (call.emission k cat).result := by
  rw [write_eq] at h
  cases h
  exact Emission.result_attempt _

/-- The call has this outcome whatever writer it writes to. -/
def Answers (k : Converter) (cat : Catalog) (call : Call) (answer : Except ConversionError Unit) : Prop :=
  ∀ w : Writer, ∃ w', call.write k cat w = some (answer, w')

theorem answers_iff (call : Call) {answer : Except ConversionError Unit} :
    call.Answers k cat answer ↔ (call.emission k cat).result = answer := by
  constructor
  · intro h
    obtain ⟨w', h⟩ := h {}
    exact (answer_eq h).symm
  · rintro rfl w
    refine ⟨w.run (call.emission k cat).attempt.steps, ?_⟩
    rw [write_eq, Writer.emit, Emission.result_attempt]

theorem emission_keepsLevel {floor : Nat} (hk : k.CustomsKeepLevel cat floor) (call : Call) :
    (call.emission k cat).KeepsLevel floor := by
  cases call with
  | convert d t name => exact Converter.emission_keepsLevel hk _ d
  | exports c target receiver => exact exports_keepsLevel hk c target receiver
  | binding c target receiver => exact binding_keepsLevel hk c target receiver
  | construction c m => exact construction_keepsLevel k floor c m

end Call

/-- Every call has an answer. A failure leaves the writer exactly as it was: its text, its level, and whether
    a line is to start. A success has only added to the text; it ends on the level that it began on, provided
    that the custom strategies keep to that from this level on. -/
theorem write_all_or_nothing (k : Converter) (cat : Catalog) (call : Call) (w : Writer) :
    ∃ answer w', call.write k cat w = some (answer, w') ∧
      (∀ x, answer = .error x → w' = w) ∧
      (answer = .ok () → (∃ added, w'.text = w.text ++ added) ∧
        (k.CustomsKeepLevel cat w.level → w'.level = w.level)) := by
  rw [call.write_eq w]
  cases hr : (call.emission k cat).result with
  | error x =>
    rw [Emission.attempt_of_error hr]
    exact ⟨.error x, w, rfl, fun _ _ => rfl, fun hx => nomatch hx⟩
  | ok a =>
    rw [Emission.attempt_of_ok hr]
    refine ⟨_, _, rfl, fun x hx => ?_, fun _ => ⟨(w.grown_run _).text, fun hk => ?_⟩⟩
    · rw [hr] at hx
      cases hx
    · exact call.emission_keepsLevel hk a hr w (Nat.le_refl _)

/-- Writes an array between brackets, its element on a line of its own. -/
def bracketed : Script where
  name := "bracketed"
  accepts := .array
  toRuntime := [.text "[", .indent, .newline, .element none .toRuntime, .outdent, .text "]"]
  fromRuntime := [.name]

/-- Arrays of arrays are nested too deep. -/
def bracketing : Converter := ⟨{ maxDepth := 1 }, [.identity, bracketed.strategy]⟩

theorem bracketing_keepsLevel (cat : Catalog) (floor : Nat) : bracketing.CustomsKeepLevel cat floor := by
  intro s hs c hn d
  have hs' : Strategy.custom s = bracketed.strategy := by simpa [bracketing] using hs
  rw [hs']
  simp only [emissionOf, emissionBy, bracketed, Script.strategy, Script.pieces?, Strategy.emission]
  cases d with
  | extractor => exact (Emission.moves_fail _).keepsLevel
  | fromRuntime => exact (Emission.moves_print _).keepsLevel
  | toRuntime =>
    simp only [Script.behaviour, List.foldr, Piece.behaviour, Option.getD_none]
    have opened : ∀ w : Writer, w.level + 1 - 1 = w.level := fun w => Nat.add_sub_cancel _ _
    cases c.type with
    | primitive p => exact fun _ _ w _ => opened w
    | object r => exact fun _ _ w _ => opened w
    | array t =>
      simp only [Behaviour.emission]
      intro a ha w hw
      cases hr : (bracketing.nest cat c t c.name .toRuntime).result with
      | error x =>
        rw [hr] at ha
        cases ha
      | ok b =>
        have kept := hn t c.name .toRuntime b hr (((w.print "[").indent).print "\n") (Nat.le_succ_of_le hw)
        simp only [Piece.andThen, Behaviour.emission, Writer.run_cons, Writer.run_append]
        show ((((w.print "[").indent).print "\n").run _).level - 1 = w.level
        rw [kept]
        exact opened w

/-- In the middle of an indented line, after a character of two bytes: an array of arrays fails when two
    brackets are open, and nothing stays of them. -/
theorem write_all_or_nothing_bracketed :
    let w : Writer := ⟨"é", "\t", 3, false⟩
    let array : HostType := .array (.primitive .int)
    bracketing.CustomsKeepLevel .runtime w.level ∧
      (∃ w', Call.write bracketing .runtime w (.convert .toRuntime array "x") = some (.ok (), w') ∧
        (∃ added, w'.text = w.text ++ added) ∧ w'.level = 3) ∧
      Call.write bracketing .runtime w (.convert .toRuntime (.array array) "x") =
        some (.error (.recursive "int" 2), w) := by
  intro w array
  have hk := bracketing_keepsLevel .runtime w.level
  refine ⟨hk, ?_, ?_⟩
  · obtain ⟨answer, w', hw, -, hok⟩ := write_all_or_nothing bracketing .runtime (.convert .toRuntime array "x") w
    obtain rfl : answer = .ok () := Call.answer_eq hw
    exact ⟨w', hw, (hok rfl).1, (hok rfl).2 hk⟩
  · obtain ⟨answer, w', hw, herr, -⟩ :=
      write_all_or_nothing bracketing .runtime (.convert .toRuntime (.array array) "x") w
    obtain rfl : answer = .error (.recursive "int" 2) := Call.answer_eq hw
    rw [hw, herr _ rfl]

end Marshal.Converter
