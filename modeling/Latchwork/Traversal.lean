import Latchwork.Index

/-!
# Depth-first order

The order in which a depth-first traversal leaves the nodes of a graph. Each node is given with the
nodes that it needs; a node is left once everything it needs has been left. The traversal keeps the
path from its root to the current node on an explicit stack, so that long chains need no deep
recursion. A node that needs a node on its own path closes a cycle.
-/

namespace Latchwork

/-- A node on the current path, and the nodes it needs that have not been looked at. -/
structure Frame where
  node : Index
  pending : List Index
  deriving DecidableEq, Repr

namespace Traversal

/-- Do two indices stand for the same node? -/
def same (a b : Index) : Bool := a.value == b.value

/-- The part of a path from its tip down to a node, that node included. -/
def cycleTo (p : Index) : List Frame → List Index
  | [] => []
  | f :: below => if same f.node p then [f.node] else f.node :: cycleTo p below

/-- The work that is left on a path. -/
def work : List Frame → Nat
  | [] => 0
  | f :: below => f.pending.length + 1 + work below

/-- Removing a node that is present makes a list shorter. -/
theorem length_eraseP_lt {p : Index} {fresh : List Index} (h : fresh.any (same p) = true) :
    (fresh.eraseP (same p)).length < fresh.length := by
  obtain ⟨a, ha, hp⟩ := List.any_eq_true.1 h
  have := List.length_pos_of_mem ha
  rw [List.length_eraseP_of_mem ha hp]
  omega

/-- Runs the traversal. The fresh nodes have not been entered, the path leads to the current node,
tip first, and the finished nodes have been left, last first. The result is the order in which nodes
are left, or the first cycle that is met, from the tip of the path down. -/
def run (needs : Index → List Index) (fresh : List Index) (path : List Frame)
    (finished : List Index) : Except (List Index) (List Index) :=
  match path with
  | [] =>
    match fresh with
    | [] => .ok finished.reverse
    | root :: rest => run needs rest [⟨root, needs root⟩] finished
  | ⟨node, []⟩ :: below => run needs fresh below (node :: finished)
  | ⟨node, p :: pending⟩ :: below =>
    if fresh.any (same p) then
      run needs (fresh.eraseP (same p)) (⟨p, needs p⟩ :: ⟨node, pending⟩ :: below) finished
    else if (node :: below.map Frame.node).any (same p) then
      .error (cycleTo p (⟨node, pending⟩ :: below))
    else run needs fresh (⟨node, pending⟩ :: below) finished
  termination_by (fresh.length, work path)
  decreasing_by
    all_goals simp_wf
    · exact .left _ _ (by omega)
    · exact .right _ (by simp [work])
    · exact .left _ _ (length_eraseP_lt (by assumption))
    · exact .right _ (by simp [work])

/-- The depth-first order of the nodes of a graph, whose roots are taken in the given order. -/
def order (needs : Index → List Index) (nodes : List Index) :
    Except (List Index) (List Index) :=
  run needs nodes [] []

end Traversal

end Latchwork
