/-! # Directed graphs and their cycles

A graph has nodes `0, …, size - 1` and a list of edges in the order in which they were added; an edge
may occur several times, and a node may point to itself. `cyclicNode?` looks for a node on a cycle in two
depth-first passes, each over the nodes in a fixed order with the newest edges pushed first:

* the first follows the edges and lists the nodes as they are finished;
* the second goes through that list backwards and follows the edges against their direction. From a node
  that is on no cycle it meets no node that the passes before it have not met.

A node with an edge to itself stops the first pass, a second node met from one start the second. -/

namespace Marshal

structure Digraph where
  size : Nat
  edges : List (Nat × Nat)
deriving Repr

namespace Digraph

/-- Where the edges from `v` lead, oldest edge first. -/
def successors (g : Digraph) (v : Nat) : List Nat := (g.edges.filter (·.1 == v)).map (·.2)

def predecessors (g : Digraph) (v : Nat) : List Nat := (g.edges.filter (·.2 == v)).map (·.1)

theorem length_successors_le (g : Digraph) (v : Nat) : (g.successors v).length ≤ g.edges.length := by
  rw [successors, List.length_map]
  exact List.length_filter_le _ _

theorem length_predecessors_le (g : Digraph) (v : Nat) : (g.predecessors v).length ≤ g.edges.length := by
  rw [predecessors, List.length_map]
  exact List.length_filter_le _ _

/-- Taking a node out of the fresh ones pays for every node that is pushed in return. -/
theorem visit_decreases {fresh pushed : List Nat} {v e : Nat} (p : Nat → Bool) (h : v ∈ fresh)
    (hp : pushed.length ≤ e) :
    (fresh.erase v).length * (e + 1) + (pushed.filter p).length < fresh.length * (e + 1) := by
  obtain ⟨n, hn⟩ := Nat.exists_eq_add_of_lt (List.length_pos_of_mem h)
  have := List.length_filter_le p pushed
  rw [List.length_erase_of_mem h, hn]
  simp only [Nat.zero_add, Nat.add_sub_cancel, Nat.add_mul, Nat.one_mul]
  omega

/-! ### First pass -/

/-- One search of the first pass. `fresh` holds the nodes not met yet, `finished` the finished ones, last
    first. A node stays on the stack until its successors are finished. -/
def finishFrom (g : Digraph) (fresh stack finished : List Nat) : Except Nat (List Nat × List Nat) :=
  match stack with
  | [] => .ok (fresh, finished)
  | v :: rest =>
    if v ∈ fresh then
      if v ∈ g.successors v then .error v
      else finishFrom g (fresh.erase v) ((g.successors v).filter ((fresh.erase v).contains ·) ++ v :: rest) finished
    else finishFrom g fresh rest (if v ∈ finished then finished else v :: finished)
termination_by fresh.length * (g.edges.length + 1) + stack.length
decreasing_by
  · have := visit_decreases ((fresh.erase v).contains ·) ‹v ∈ fresh› (g.length_successors_le v)
    rw [List.length_append]
    omega
  · rw [List.length_cons]
    omega

/-- The first pass over the starts that are still fresh when their turn comes. -/
def finishAll (g : Digraph) (fresh finished : List Nat) : List Nat → Except Nat (List Nat)
  | [] => .ok finished
  | v :: rest =>
    if v ∈ fresh then
      match g.finishFrom fresh [v] finished with
      | .error u => .error u
      | .ok (fresh', finished') => finishAll g fresh' finished' rest
    else finishAll g fresh finished rest

/-! ### Second pass -/

/-- One search of the second pass; `started` tells whether it has met a node already. -/
def retraceFrom (g : Digraph) (started : Bool) (fresh stack : List Nat) : Except Nat (List Nat) :=
  match stack with
  | [] => .ok fresh
  | v :: rest =>
    if v ∈ fresh then
      if started then .error v
      else retraceFrom g true (fresh.erase v) ((g.predecessors v).filter ((fresh.erase v).contains ·) ++ rest)
    else retraceFrom g started fresh rest
termination_by fresh.length * (g.edges.length + 1) + stack.length
decreasing_by
  · have := visit_decreases ((fresh.erase v).contains ·) ‹v ∈ fresh› (g.length_predecessors_le v)
    rw [List.length_append, List.length_cons]
    omega
  · rw [List.length_cons]
    omega

def retraceAll (g : Digraph) (fresh : List Nat) : List Nat → Except Nat Unit
  | [] => .ok ()
  | v :: rest =>
    match g.retraceFrom false fresh [v] with
    | .error u => .error u
    | .ok fresh' => retraceAll g fresh' rest

/-! ### Both passes -/

def search (g : Digraph) : Except Nat Unit := do
  let nodes := List.range g.size
  let finished ← g.finishAll nodes [] nodes
  g.retraceAll nodes finished

def cyclicNode? (g : Digraph) : Option Nat :=
  match g.search with
  | .error v => some v
  | .ok () => none

end Digraph

end Marshal
