/-! # Traversals that can fail

A traversal of a list gives the results for all its elements, or the error of the first element that has
one. -/

namespace Marshal.Traversal
variable {α β ε : Type} {f : α → Except ε β} {x : α} {xs : List α}

theorem map_eq_ok {r : Except ε α} {g : α → β} {y : β} : r.map g = .ok y ↔ ∃ x, r = .ok x ∧ g x = y := by
  cases r <;> simp [Except.map]

theorem map_eq_error {r : Except ε α} {g : α → β} {e : ε} : r.map g = .error e ↔ r = .error e := by
  cases r <;> simp [Except.map]

/-! ### With results -/

theorem mapM_cons_eq_ok {ys : List β} :
    (x :: xs).mapM f = .ok ys ↔ ∃ z zs, f x = .ok z ∧ xs.mapM f = .ok zs ∧ z :: zs = ys := by
  rw [List.mapM_cons]
  cases f x with
  | error e => exact ⟨fun h => (nomatch h), fun ⟨_, _, h, _⟩ => (nomatch h)⟩
  | ok z =>
    cases xs.mapM f with
    | error e => exact ⟨fun h => (nomatch h), fun ⟨_, _, _, h, _⟩ => (nomatch h)⟩
    | ok zs =>
      constructor
      · rintro ⟨⟩
        exact ⟨z, zs, rfl, rfl, rfl⟩
      · rintro ⟨_, _, ⟨⟩, ⟨⟩, rfl⟩
        rfl

theorem mapM_cons_eq_error {e : ε} :
    (x :: xs).mapM f = .error e ↔ f x = .error e ∨ (∃ z, f x = .ok z) ∧ xs.mapM f = .error e := by
  rw [List.mapM_cons]
  cases f x with
  | error e' =>
    constructor
    · rintro ⟨⟩
      exact Or.inl rfl
    · rintro (⟨⟨⟩⟩ | ⟨⟨_, h⟩, -⟩)
      · rfl
      · cases h
  | ok z =>
    cases xs.mapM f with
    | error e' =>
      constructor
      · rintro ⟨⟩
        exact Or.inr ⟨⟨z, rfl⟩, rfl⟩
      · rintro (h | ⟨-, ⟨⟩⟩)
        · cases h
        · rfl
    | ok zs => exact ⟨fun h => (nomatch h), fun h => h.elim (fun h => (nomatch h)) fun h => (nomatch h.2)⟩

theorem ok_of_mapM_ok {ys : List β} (h : xs.mapM f = .ok ys) : ∀ x ∈ xs, ∃ y, f x = .ok y := by
  induction xs generalizing ys with
  | nil => exact fun x hx => nomatch hx
  | cons x xs ih =>
    obtain ⟨z, zs, hx, hxs, -⟩ := mapM_cons_eq_ok.mp h
    intro w hw
    rcases List.mem_cons.mp hw with rfl | hw
    · exact ⟨z, hx⟩
    · exact ih hxs w hw

theorem mem_of_mapM_ok {ys : List β} (h : xs.mapM f = .ok ys) {y : β} : y ∈ ys ↔ ∃ x ∈ xs, f x = .ok y := by
  induction xs generalizing ys with
  | nil =>
    cases h
    simp
  | cons x xs ih =>
    obtain ⟨z, zs, hx, hxs, rfl⟩ := mapM_cons_eq_ok.mp h
    simp only [List.mem_cons, ih hxs, exists_eq_or_imp, hx, Except.ok.injEq, @eq_comm _ y z]

theorem first_of_mapM_error {e : ε} (h : xs.mapM f = .error e) :
    ∃ before x after, xs = before ++ x :: after ∧ (∀ b ∈ before, ∃ y, f b = .ok y) ∧ f x = .error e := by
  induction xs with
  | nil => cases h
  | cons x xs ih =>
    rcases mapM_cons_eq_error.mp h with hx | ⟨hx, hxs⟩
    · exact ⟨[], x, xs, rfl, fun b hb => (nomatch hb), hx⟩
    · obtain ⟨before, y, after, rfl, hbefore, hy⟩ := ih hxs
      refine ⟨x :: before, y, after, rfl, fun b hb => ?_, hy⟩
      rcases List.mem_cons.mp hb with rfl | hb
      · exact hx
      · exact hbefore b hb

/-! ### Without results -/

section
variable {check : α → Except ε Unit}

theorem forM_cons : (x :: xs).forM check = (check x).bind fun _ => xs.forM check := rfl

theorem first_of_forM_error {e : ε} (h : xs.forM check = .error e) :
    ∃ before x after, xs = before ++ x :: after ∧ (∀ b ∈ before, check b = .ok ()) ∧ check x = .error e := by
  induction xs with
  | nil => cases h
  | cons x xs ih =>
    rw [forM_cons] at h
    cases hx : check x with
    | error e' =>
      rw [hx] at h
      cases h
      exact ⟨[], x, xs, rfl, fun b hb => (nomatch hb), hx⟩
    | ok _ =>
      rw [hx] at h
      obtain ⟨before, y, after, rfl, hbefore, hy⟩ := ih h
      exact ⟨x :: before, y, after, rfl, List.forall_mem_cons.mpr ⟨hx, hbefore⟩, hy⟩

theorem forM_eq_ok : xs.forM check = .ok () ↔ ∀ x ∈ xs, check x = .ok () := by
  induction xs with
  | nil => exact ⟨fun _ x hx => (nomatch hx), fun _ => rfl⟩
  | cons x xs ih =>
    rw [List.forall_mem_cons, ← ih, forM_cons]
    cases check x with
    | error e => exact ⟨fun h => (nomatch h), fun h => (nomatch h.1)⟩
    | ok _ => exact ⟨fun h => ⟨rfl, h⟩, fun h => h.2⟩

end

end Marshal.Traversal
