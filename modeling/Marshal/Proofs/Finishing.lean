import Marshal.Digraph
import Mathlib.Logic.Relation

/-! # The order of finishing

The first pass lists each node once, in the order in which their searches end. A node on the stack that has
been met but is not finished is open. Every open node leads to all that lies above its uppermost place on
the stack, and all its fresh successors lie there. So when a node is finished, each of its successors is
finished already or leads back to it. -/

namespace Marshal.Digraph
open Relation

def Edge (g : Digraph) (u v : Nat) : Prop := (u, v) ∈ g.edges

def Bounded (g : Digraph) : Prop := ∀ u v, g.Edge u v → u < g.size ∧ v < g.size

variable {g : Digraph}

theorem mem_successors {u v : Nat} : v ∈ g.successors u ↔ g.Edge u v := by
  simp [successors, Edge]

theorem mem_predecessors {u v : Nat} : u ∈ g.predecessors v ↔ g.Edge u v := by
  simp [predecessors, Edge]

/-! ### The stack -/

/-- What lies above the uppermost place of `v`. -/
def above (v : Nat) (stack : List Nat) : List Nat := stack.takeWhile (· != v)

theorem above_cons_self (v : Nat) (stack : List Nat) : above v (v :: stack) = [] := by simp [above]

theorem above_cons_of_ne {u v : Nat} (h : u ≠ v) (stack : List Nat) : above v (u :: stack) = u :: above v stack := by
  simp [above, h]

theorem above_append {v : Nat} {xs : List Nat} (h : v ∉ xs) (stack : List Nat) :
    above v (xs ++ stack) = xs ++ above v stack := by
  refine List.takeWhile_append_of_pos fun x hx => ?_
  simp only [bne_iff_ne]
  rintro rfl
  exact h hx

/-- Each node of the list comes after those of its successors that do not lead back to it. -/
def Settled (g : Digraph) : List Nat → Prop
  | [] => True
  | v :: earlier => (∀ w, g.Edge v w → w ∈ earlier ∨ ReflTransGen g.Edge w v) ∧ Settled g earlier

theorem Settled.of_append {xs ys : List Nat} (h : g.Settled (xs ++ ys)) : g.Settled ys := by
  induction xs with
  | nil => exact h
  | cons x xs ih => exact ih h.2

/-- What holds all through the first pass. -/
structure Search (g : Digraph) (fresh stack finished : List Nat) : Prop where
  nodes : ∀ v, v < g.size ↔ v ∈ fresh ∨ v ∈ stack ∨ v ∈ finished
  fresh_nodup : fresh.Nodup
  finished_nodup : finished.Nodup
  apart : ∀ v ∈ finished, v ∉ fresh
  loopless : ∀ v < g.size, v ∉ fresh → ¬g.Edge v v
  leads : ∀ v ∈ stack, v ∉ fresh → v ∉ finished → ∀ x ∈ above v stack, ReflTransGen g.Edge v x
  pending : ∀ v ∈ stack, v ∉ fresh → v ∉ finished → ∀ w, g.Edge v w → w ∈ fresh → w ∈ above v stack
  settled : g.Settled finished

namespace Search
variable {fresh stack finished : List Nat} {v : Nat}

theorem start (g : Digraph) : Search g (List.range g.size) [] [] where
  nodes v := by simp
  fresh_nodup := List.nodup_range
  finished_nodup := List.nodup_nil
  apart v hv := by cases hv
  loopless v hv hf := absurd (List.mem_range.mpr hv) hf
  leads v hv := by cases hv
  pending v hv := by cases hv
  settled := trivial

theorem push (h : Search g fresh [] finished) (hv : v ∈ fresh) : Search g fresh [v] finished where
  nodes u := by
    rw [h.nodes u]
    constructor
    · intro hu
      rcases hu with hu | hu | hu
      · exact Or.inl hu
      · cases hu
      · exact Or.inr (Or.inr hu)
    · intro hu
      rcases hu with hu | hu | hu
      · exact Or.inl hu
      · rw [List.mem_singleton.mp hu]
        exact Or.inl hv
      · exact Or.inr (Or.inr hu)
  fresh_nodup := h.fresh_nodup
  finished_nodup := h.finished_nodup
  apart := h.apart
  loopless := h.loopless
  leads u hu hf := absurd (List.mem_singleton.mp hu ▸ hv) hf
  pending u hu hf := absurd (List.mem_singleton.mp hu ▸ hv) hf
  settled := h.settled

/-- An open node below the top leads to the top. -/
theorem leads_top {rest : List Nat} (h : Search g fresh (v :: rest) finished) {u : Nat} (hu : u ∈ v :: rest)
    (hf : u ∉ fresh) (hn : u ∉ finished) : ReflTransGen g.Edge u v := by
  by_cases huv : u = v
  · rw [huv]
  · exact h.leads u hu hf hn v (by rw [above_cons_of_ne (Ne.symm huv)]; exact List.mem_cons_self ..)

/-- The top is met: it is open from now on, and its fresh successors lie above it. -/
theorem visit {rest : List Nat} (h : Search g fresh (v :: rest) finished) (hv : v ∈ fresh) (hloop : ¬g.Edge v v) :
    Search g (fresh.erase v) ((g.successors v).filter ((fresh.erase v).contains ·) ++ v :: rest) finished := by
  have herase : ∀ x, x ∈ fresh.erase v ↔ x ≠ v ∧ x ∈ fresh := fun x => h.fresh_nodup.mem_erase_iff
  have hpushed : ∀ x, x ∈ (g.successors v).filter ((fresh.erase v).contains ·) ↔ g.Edge v x ∧ x ≠ v ∧ x ∈ fresh := by
    intro x
    rw [List.mem_filter, mem_successors, List.contains_iff_mem, herase]
  generalize (g.successors v).filter ((fresh.erase v).contains ·) = pushed at hpushed ⊢
  -- An open node is no pushed one; it is the top, or it was open before.
  have hopen : ∀ u ∈ pushed ++ v :: rest, u ∉ fresh.erase v → u ∉ pushed ∧ u ∈ v :: rest ∧ (u = v ∨ u ∉ fresh) := by
    intro u hu hf
    have hnp : u ∉ pushed := fun hp => hf ((herase u).mpr ((hpushed u).mp hp).2)
    refine ⟨hnp, (List.mem_append.mp hu).resolve_left hnp, ?_⟩
    by_cases huv : u = v
    · exact Or.inl huv
    · exact Or.inr fun hu => hf ((herase u).mpr ⟨huv, hu⟩)
  refine ⟨fun u => ?_, h.fresh_nodup.erase v, h.finished_nodup, fun u hu hf => h.apart u hu ((herase u).mp hf).2,
    fun u hu hf => ?_, fun u hu hf hn x hx => ?_, fun u hu hf hn w huw hw => ?_, h.settled⟩
  · rw [h.nodes u, herase, List.mem_append, hpushed]
    constructor
    · intro hu
      rcases hu with hu | hu | hu
      · by_cases huv : u = v
        · exact Or.inr (Or.inl (Or.inr (huv ▸ List.mem_cons_self ..)))
        · exact Or.inl ⟨huv, hu⟩
      · exact Or.inr (Or.inl (Or.inr hu))
      · exact Or.inr (Or.inr hu)
    · intro hu
      rcases hu with hu | (hu | hu) | hu
      · exact Or.inl hu.2
      · exact Or.inl hu.2.2
      · exact Or.inr (Or.inl hu)
      · exact Or.inr (Or.inr hu)
  · by_cases huv : u = v
    · exact huv ▸ hloop
    · exact h.loopless u hu fun huf => hf ((herase u).mpr ⟨huv, huf⟩)
  · obtain ⟨hnp, hu', hcase⟩ := hopen u hu hf
    rw [above_append hnp] at hx
    rcases hcase with rfl | huf
    · rw [above_cons_self, List.append_nil] at hx
      exact .single ((hpushed x).mp hx).1
    · rcases List.mem_append.mp hx with hx | hx
      · exact (h.leads_top hu' huf hn).tail ((hpushed x).mp hx).1
      · exact h.leads u hu' huf hn x hx
  · obtain ⟨hnp, hu', hcase⟩ := hopen u hu hf
    have hw' := (herase w).mp hw
    rw [above_append hnp, List.mem_append]
    rcases hcase with rfl | huf
    · exact Or.inl ((hpushed w).mpr ⟨huw, hw'⟩)
    · exact Or.inr (h.pending u hu' huf hn w huw hw'.2)

/-- When the top is finished, its successors are finished, or open and below it. -/
theorem settled_top {rest : List Nat} (h : Search g fresh (v :: rest) finished) (hg : g.Bounded) (hv : v ∉ fresh)
    (hn : v ∉ finished) : ∀ w, g.Edge v w → w ∈ finished ∨ ReflTransGen g.Edge w v := by
  intro w hvw
  by_cases hwn : w ∈ finished
  · exact Or.inl hwn
  · have hwf : w ∉ fresh := by
      intro hwf
      have := h.pending v (List.mem_cons_self ..) hv hn w hvw hwf
      rw [above_cons_self] at this
      cases this
    rcases (h.nodes w).mp (hg v w hvw).2 with hw | hw | hw
    · exact absurd hw hwf
    · exact Or.inr (h.leads_top hw hwf hwn)
    · exact absurd hw hwn

theorem mem_closed {finished : List Nat} {u : Nat} :
    u ∈ (if v ∈ finished then finished else v :: finished) ↔ u = v ∨ u ∈ finished := by
  split
  · next hv =>
    constructor
    · exact Or.inr
    · rintro (rfl | hu)
      · exact hv
      · exact hu
  · exact List.mem_cons

theorem close {rest : List Nat} (h : Search g fresh (v :: rest) finished) (hg : g.Bounded) (hv : v ∉ fresh) :
    Search g fresh rest (if v ∈ finished then finished else v :: finished) := by
  -- A node that is still open is not the top, and loses only the top above it.
  have habove : ∀ u, u ∉ (if v ∈ finished then finished else v :: finished) →
      u ∉ finished ∧ above u (v :: rest) = v :: above u rest := by
    intro u hu
    rw [mem_closed, not_or] at hu
    exact ⟨hu.2, above_cons_of_ne (Ne.symm hu.1) rest⟩
  refine ⟨fun u => ?_, h.fresh_nodup, ?_, fun u hu => ?_, h.loopless, fun u hu hf hn x hx => ?_,
    fun u hu hf hn w huw hw => ?_, ?_⟩
  · rw [h.nodes u, mem_closed, List.mem_cons]
    constructor
    · intro hu
      rcases hu with hu | (hu | hu) | hu
      · exact Or.inl hu
      · exact Or.inr (Or.inr (Or.inl hu))
      · exact Or.inr (Or.inl hu)
      · exact Or.inr (Or.inr (Or.inr hu))
    · intro hu
      rcases hu with hu | hu | hu | hu
      · exact Or.inl hu
      · exact Or.inr (Or.inl (Or.inr hu))
      · exact Or.inr (Or.inl (Or.inl hu))
      · exact Or.inr (Or.inr hu)
  · split
    · exact h.finished_nodup
    · next hn => exact List.nodup_cons.mpr ⟨hn, h.finished_nodup⟩
  · rcases mem_closed.mp hu with rfl | hu
    · exact hv
    · exact h.apart u hu
  · obtain ⟨hn', ha⟩ := habove u hn
    exact h.leads u (List.mem_cons_of_mem _ hu) hf hn' x (ha ▸ List.mem_cons_of_mem _ hx)
  · obtain ⟨hn', ha⟩ := habove u hn
    have hw' := h.pending u (List.mem_cons_of_mem _ hu) hf hn' w huw hw
    rw [ha] at hw'
    exact (List.mem_cons.mp hw').resolve_left fun hwv => hv (hwv ▸ hw)
  · split
    · exact h.settled
    · next hn => exact ⟨h.settled_top hg hv hn, h.settled⟩

end Search

/-! ### The pass -/

theorem finishFrom_search {fresh stack finished fresh' finished' : List Nat} (hg : g.Bounded)
    (h : Search g fresh stack finished) (hr : g.finishFrom fresh stack finished = .ok (fresh', finished')) :
    Search g fresh' [] finished' ∧ ∀ x ∈ fresh', x ∈ fresh ∧ x ∉ stack := by
  fun_induction finishFrom g fresh stack finished with
  | case1 fresh finished =>
    cases hr
    exact ⟨h, fun x hx => ⟨hx, List.not_mem_nil⟩⟩
  | case2 => cases hr
  | case3 fresh finished v rest hv hloop ih =>
    obtain ⟨hs, hsub⟩ := ih (h.visit hv fun he => hloop (mem_successors.mpr he)) hr
    refine ⟨hs, fun x hx => ?_⟩
    obtain ⟨hxf, hxs⟩ := hsub x hx
    exact ⟨List.mem_of_mem_erase hxf, fun hmem => hxs (List.mem_append_right _ hmem)⟩
  | case4 fresh finished v rest hv ih =>
    obtain ⟨hs, hsub⟩ := ih (h.close hg hv) hr
    refine ⟨hs, fun x hx => ?_⟩
    obtain ⟨hxf, hxs⟩ := hsub x hx
    refine ⟨hxf, fun hmem => ?_⟩
    rcases List.mem_cons.mp hmem with rfl | hmem
    · exact hv hxf
    · exact hxs hmem

theorem finishFrom_error {fresh stack finished : List Nat} {v : Nat}
    (hr : g.finishFrom fresh stack finished = .error v) : g.Edge v v := by
  fun_induction finishFrom g fresh stack finished with
  | case1 => cases hr
  | case2 fresh finished u rest hu hloop =>
    cases hr
    exact mem_successors.mp hloop
  | case3 _ _ _ _ _ _ ih => exact ih hr
  | case4 _ _ _ _ _ ih => exact ih hr

/-- What the first pass lists: every node once, none with an edge to itself, in an order of finishing. -/
structure Finished (g : Digraph) (order : List Nat) : Prop where
  nodes : ∀ v, v < g.size ↔ v ∈ order
  nodup : order.Nodup
  loopless : ∀ v, ¬g.Edge v v
  settled : g.Settled order

theorem finishAll_search {starts fresh finished order : List Nat} (hg : g.Bounded) (h : Search g fresh [] finished)
    (hstarts : ∀ v ∈ fresh, v ∈ starts) (hr : g.finishAll fresh finished starts = .ok order) : Finished g order := by
  induction starts generalizing fresh finished with
  | nil =>
    cases hr
    have hf : ∀ v, v ∉ fresh := fun v hv => List.not_mem_nil (hstarts v hv)
    refine ⟨fun v => ?_, h.finished_nodup, fun v he => h.loopless v (hg v v he).1 (hf v) he, h.settled⟩
    rw [h.nodes v]
    simp [hf v]
  | cons v rest ih =>
    unfold finishAll at hr
    split at hr
    · next hv =>
      split at hr
      · cases hr
      · next fresh' finished' hrun =>
        obtain ⟨hs, hsub⟩ := finishFrom_search hg (h.push hv) hrun
        refine ih hs (fun x hx => ?_) hr
        obtain ⟨hxf, hxs⟩ := hsub x hx
        exact (List.mem_cons.mp (hstarts x hxf)).resolve_left fun hxv => hxs (hxv ▸ List.mem_singleton_self v)
    · next hv =>
      refine ih h (fun x hx => ?_) hr
      exact (List.mem_cons.mp (hstarts x hx)).resolve_left fun hxv => hv (hxv ▸ hx)

theorem finishAll_error {starts fresh finished : List Nat} {v : Nat}
    (hr : g.finishAll fresh finished starts = .error v) : g.Edge v v := by
  induction starts generalizing fresh finished with
  | nil => cases hr
  | cons u rest ih =>
    unfold finishAll at hr
    split at hr
    · split at hr
      · next w hrun =>
        cases hr
        exact finishFrom_error hrun
      · exact ih hr
    · exact ih hr

theorem finished_of_finishAll {order : List Nat} (hg : g.Bounded)
    (hr : g.finishAll (List.range g.size) [] (List.range g.size) = .ok order) : Finished g order :=
  finishAll_search hg (Search.start g) (fun _ hv => hv) hr

end Marshal.Digraph
