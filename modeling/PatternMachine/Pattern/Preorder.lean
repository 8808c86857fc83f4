import PatternMachine.Pattern.Basic

/-!
# Preorder

`Pattern.levels` lists the nodes of a pattern in preorder, each with its depth.  The walk keeps its own agenda, so that
no pattern is nested too deeply for it.
-/

namespace PatternMachine

namespace Pattern

/-- The number of nodes that the patterns of an agenda, given with their depths, have together. -/
private def agendaSize (agenda : List (Nat × Pattern)) : Nat :=
  sizeAll (agenda.map (·.2))

private theorem agendaSize_step (depth : Nat) (p : Pattern) (rest : List (Nat × Pattern)) :
    agendaSize (p.children.map (depth + 1, ·) ++ rest) < agendaSize ((depth, p) :: rest) := by
  simp only [agendaSize, List.map_append, List.map_map, List.map_cons, sizeAll_append, sizeAll, size_eq p]
  rw [show ((·.2) ∘ (depth + 1, ·) : Pattern → Pattern) = id from rfl, List.map_id]
  omega

/-- Walks through the patterns of an agenda, given with their depths, and through all that is below them.  `done`
holds the nodes met so far, latest first. -/
def walk : (agenda : List (Nat × Pattern)) → (done : List (Nat × Node)) → List (Nat × Node)
  | [], done => done.reverse
  | (depth, p) :: rest, done => walk (p.children.map (depth + 1, ·) ++ rest) ((depth, p.node) :: done)
termination_by agenda => agendaSize agenda
decreasing_by exact agendaSize_step depth p rest

/-- The nodes of a pattern in preorder, each with its depth. -/
def levels (p : Pattern) : List (Nat × Node) :=
  walk [(0, p)] []

end Pattern

end PatternMachine
