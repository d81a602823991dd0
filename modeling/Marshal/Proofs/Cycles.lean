import Marshal.Proofs.Finishing

/-! # Nodes on cycles

The second pass goes through the nodes from the last finished to the first. It stops at a predecessor that
was finished before the node at hand, and such a predecessor is on a cycle with it. If it stops nowhere,
every edge leads to a node that was finished earlier, so that there is no cycle. -/

namespace Marshal.Digraph
open Relation
variable {g : Digraph}

/-- From a fresh node the second pass stops at its first fresh predecessor, if there is one. -/
theorem retraceFrom_fresh {fresh : List Nat} {v : Nat} (hv : v ∈ fresh) :
    g.retraceFrom false fresh [v] =
      match (g.predecessors v).filter ((fresh.erase v).contains ·) with
      | [] => .ok (fresh.erase v)
      | x :: _ => .error x := by
  rw [retraceFrom, if_pos hv, if_neg Bool.false_ne_true, List.append_nil]
  cases hp : (g.predecessors v).filter ((fresh.erase v).contains ·) with
  | nil => rw [retraceFrom]
  | cons x xs =>
    have hx : x ∈ fresh.erase v := by
      have := (List.mem_filter.mp (hp ▸ List.mem_cons_self (a := x) (l := xs))).2
      simpa using this
    rw [retraceFrom, if_pos hx, if_pos rfl]

/-- An edge against the order of finishing: it leads from `x` to a node before `x` in the list. -/
def Backward (g : Digraph) (order : List Nat) (x : Nat) : Prop :=
  ∃ earlier v later, order = earlier ++ v :: later ∧ x ∈ later ∧ g.Edge x v

/-- The nodes that the second pass has not met are those that it has not come to. -/
theorem retraceAll_cases {fresh order : List Nat} (hfresh : fresh.Nodup) (horder : order.Nodup)
    (hsame : ∀ v, v ∈ fresh ↔ v ∈ order) :
    (g.retraceAll fresh order = .ok () ∧ ∀ x, ¬g.Backward order x) ∨
      ∃ x, g.retraceAll fresh order = .error x ∧ g.Backward order x := by
  induction order generalizing fresh with
  | nil => exact Or.inl ⟨rfl, fun x ⟨_, _, _, h, _⟩ => by simp at h⟩
  | cons v rest ih =>
    have hv : v ∈ fresh := (hsame v).mpr (List.mem_cons_self ..)
    obtain ⟨hvr, hrest⟩ := List.nodup_cons.mp horder
    have herase : ∀ u, u ∈ fresh.erase v ↔ u ∈ rest := by
      intro u
      rw [hfresh.mem_erase_iff, hsame, List.mem_cons]
      constructor
      · intro hne
        obtain ⟨hne, hu⟩ := hne
        exact hu.resolve_left hne
      · exact fun hu => ⟨fun huv => hvr (huv ▸ hu), Or.inr hu⟩
    have hpreds : ∀ u, u ∈ (g.predecessors v).filter ((fresh.erase v).contains ·) ↔ g.Edge u v ∧ u ∈ rest := by
      intro u
      rw [List.mem_filter, mem_predecessors, List.contains_iff_mem, herase]
    unfold retraceAll
    rw [retraceFrom_fresh hv]
    cases hp : (g.predecessors v).filter ((fresh.erase v).contains ·) with
    | cons x xs =>
      obtain ⟨hxv, hx⟩ := (hpreds x).mp (hp ▸ List.mem_cons_self ..)
      exact Or.inr ⟨x, rfl, [], v, rest, rfl, hx, hxv⟩
    | nil =>
      rcases ih (hfresh.erase v) hrest herase with ⟨hr, hnone⟩ | ⟨x, hr, earlier, w, later, rfl, hx, hxw⟩
      · refine Or.inl ⟨hr, fun x => ?_⟩
        intro heq
        obtain ⟨earlier, w, later, heq, hx, hxw⟩ := heq
        rcases List.cons_eq_append_iff.mp heq with ⟨-, hcons⟩ | ⟨earlier', -, hrest'⟩
        · obtain ⟨rfl, rfl⟩ := List.cons.inj hcons
          have := (hpreds x).mpr ⟨hxw, hx⟩
          rw [hp] at this
          cases this
        · exact hnone x ⟨earlier', w, later, hrest', hx, hxw⟩
      · exact Or.inr ⟨x, hr, v :: earlier, w, later, rfl, hx, hxw⟩

namespace Finished
variable {order : List Nat}

/-- A backward edge closes a cycle: when `x` was finished its successor was open, so that it leads to `x`. -/
theorem cycle_of_backward (h : Finished g order) {x : Nat} (hx : g.Backward order x) : TransGen g.Edge x x := by
  obtain ⟨earlier, v, later, rfl, hxl, hxv⟩ := hx
  obtain ⟨middle, last, rfl⟩ := List.append_of_mem hxl
  have hs : g.Settled ((earlier ++ v :: middle) ++ x :: last) := by
    rw [List.append_assoc]
    exact h.settled
  rcases hs.of_append.1 v hxv with hvl | hvx
  · have hnodup := (List.nodup_append.mp h.nodup).2.1
    exact absurd (List.mem_append_right _ (List.mem_cons_of_mem _ hvl)) (List.nodup_cons.mp hnodup).1
  · exact TransGen.head' hxv hvx

/-- Without backward edges every edge leads further down the list. -/
theorem idxOf_lt (h : Finished g order) (hg : g.Bounded) (hnone : ∀ x, ¬g.Backward order x) {u v : Nat}
    (huv : g.Edge u v) : order.idxOf u < order.idxOf v := by
  have hu := (h.nodes u).mp (hg u v huv).1
  have hv := (h.nodes v).mp (hg u v huv).2
  obtain ⟨earlier, later, rfl⟩ := List.append_of_mem hv
  have hve : v ∉ earlier := fun hve =>
    (List.nodup_append.mp h.nodup).2.2 v hve v (List.mem_cons_self ..) rfl
  have hue : u ∈ earlier := by
    rcases List.mem_append.mp hu with hu | hu
    · exact hu
    · rcases List.mem_cons.mp hu with rfl | hu
      · exact absurd huv (h.loopless u)
      · exact absurd ⟨earlier, v, later, rfl, hu, huv⟩ (hnone u)
  rw [List.idxOf_append, List.idxOf_append, if_pos hue, if_neg hve]
  exact Nat.lt_of_lt_of_le (List.idxOf_lt_length_of_mem hue) (Nat.le_add_left _ _)

theorem acyclic (h : Finished g order) (hg : g.Bounded) (hnone : ∀ x, ¬g.Backward order x) (v : Nat) :
    ¬TransGen g.Edge v v := by
  intro hcycle
  have hlt : ∀ {u w}, TransGen g.Edge u w → order.idxOf u < order.idxOf w := by
    intro u w huw
    induction huw with
    | single huw => exact h.idxOf_lt hg hnone huw
    | tail _ hvw ih => exact Nat.lt_trans ih (h.idxOf_lt hg hnone hvw)
  exact Nat.lt_irrefl _ (hlt hcycle)

end Finished

/-! ### Both passes -/

theorem search_eq (g : Digraph) :
    g.search = (g.finishAll (List.range g.size) [] (List.range g.size)).bind (g.retraceAll (List.range g.size)) :=
  rfl

theorem search_cases (hg : g.Bounded) :
    (g.search = .ok () ∧ ∀ v, ¬TransGen g.Edge v v) ∨ ∃ v, g.search = .error v ∧ TransGen g.Edge v v := by
  rw [search_eq]
  cases hr : g.finishAll (List.range g.size) [] (List.range g.size) with
  | error v => exact Or.inr ⟨v, rfl, .single (finishAll_error hr)⟩
  | ok order =>
    have h := finished_of_finishAll hg hr
    have hsame : ∀ v, v ∈ List.range g.size ↔ v ∈ order := fun v => List.mem_range.trans (h.nodes v)
    rcases retraceAll_cases (g := g) List.nodup_range h.nodup hsame with ⟨hok, hnone⟩ | ⟨x, herr, hx⟩
    · exact Or.inl ⟨hok, h.acyclic hg hnone⟩
    · exact Or.inr ⟨x, herr, h.cycle_of_backward hx⟩

theorem cycle_of_cyclicNode? (hg : g.Bounded) {v : Nat} (h : g.cyclicNode? = some v) : TransGen g.Edge v v := by
  unfold cyclicNode? at h
  rcases search_cases hg with ⟨hok, -⟩ | ⟨u, herr, hcycle⟩
  · rw [hok] at h
    cases h
  · rw [herr] at h
    cases h
    exact hcycle

theorem cyclicNode?_eq_none (hg : g.Bounded) : g.cyclicNode? = none ↔ ∀ v, ¬TransGen g.Edge v v := by
  unfold cyclicNode?
  rcases search_cases hg with ⟨hok, hnone⟩ | ⟨u, herr, hcycle⟩
  · rw [hok]
    exact ⟨fun _ => hnone, fun _ => rfl⟩
  · rw [herr]
    exact ⟨fun h => (nomatch h), fun h => absurd hcycle (h u)⟩

end Marshal.Digraph
