import Marshal.Emission

/-! # What writing keeps

Steps only ever add to the text of a writer, and never change what it indents with. So a writer can always
be taken back to a mark that was made before the steps, and a transaction does what its emission does when
the emission is attempted. -/

namespace Marshal

namespace Emission
variable {α : Type} {e : Emission α}

theorem attempt_of_ok {a : α} (h : e.result = .ok a) : e.attempt = e := by
  rw [attempt, h]

theorem attempt_of_error {x : ConversionError} (h : e.result = .error x) : e.attempt = fail x := by
  rw [attempt, h]

theorem result_attempt (e : Emission α) : e.attempt.result = e.result := by
  cases h : e.result with
  | ok a => rw [attempt_of_ok h, h]
  | error x => rw [attempt_of_error h]; rfl

end Emission

namespace Writer

/-- The text of `w` is still there in front, and lines are indented with the same unit. -/
structure Grown (w w' : Writer) : Prop where
  unit : w'.unit = w.unit
  text : ∃ added, w'.text = w.text ++ added

theorem Grown.refl (w : Writer) : Grown w w := ⟨rfl, "", String.append_empty.symm⟩

theorem Grown.trans {w w' w'' : Writer} (h₁ : Grown w w') (h₂ : Grown w' w'') : Grown w w'' where
  unit := h₂.unit.trans h₁.unit
  text := by
    obtain ⟨a, ha⟩ := h₁.text
    obtain ⟨b, hb⟩ := h₂.text
    exact ⟨a ++ b, by rw [hb, ha, String.append_assoc]⟩

theorem grown_apply (w : Writer) (s : Step) : Grown w (w.apply s) := by
  cases s with
  | print text => exact ⟨rfl, _, rfl⟩
  | indent => exact ⟨rfl, "", String.append_empty.symm⟩
  | outdent => exact ⟨rfl, "", String.append_empty.symm⟩

@[simp] theorem run_cons (w : Writer) (s : Step) (steps : List Step) : w.run (s :: steps) = (w.apply s).run steps :=
  rfl

theorem run_append (w : Writer) (xs ys : List Step) : w.run (xs ++ ys) = (w.run xs).run ys := List.foldl_append

theorem grown_run (w : Writer) (steps : List Step) : Grown w (w.run steps) := by
  induction steps generalizing w with
  | nil => exact .refl w
  | cons s steps ih => exact (grown_apply w s).trans (ih (w.apply s))

/-! ### Going back -/

/-- The mark of a writer is at the end of its text, so it is inside no character of any text that grew
    out of it, and the level and the line start are those of the mark. -/
theorem Grown.rollback? {w w' : Writer} (h : Grown w w') : w'.rollback? w.mark = some w := by
  obtain ⟨hu, a, ha⟩ := h
  have hcut : Bytes.take? (Bytes.length w.text.toList) w'.text.toList = some w.text.toList := by
    rw [ha, String.toList_append]
    exact Bytes.take?_append _ _
  show (Bytes.take? (Bytes.length w.text.toList) w'.text.toList).map _ = some w
  rw [hcut, Option.map_some, hu, String.ofList_toList]
  rfl

/-- Taking the failure back in the writer comes to the same as not writing it at all. -/
theorem transact_eq {α : Type} (w : Writer) (e : Emission α) : w.transact e = some (w.emit e.attempt) := by
  cases h : e.result with
  | ok a => simp only [transact, emit, Emission.attempt_of_ok h, h]
  | error x =>
    simp only [transact, h, (grown_run w e.steps).rollback?, Emission.attempt_of_error h]
    rfl

end Writer

end Marshal
