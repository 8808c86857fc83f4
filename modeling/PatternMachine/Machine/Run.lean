import PatternMachine.Machine.Basic
import Std.Data.TreeSet

/-!
# Runs of the machine

A run follows the first destination of every split and keeps the second one pending.  Where a branch fails, the
run goes on at the pending point that was added last.  A split that has been followed before after the same number
of characters is not followed again, since it leads where it led before.

A run can go round in circles without a split.  `Machine.stepBound` bounds the length of every run that ends, so
`Machine.accepts` can tell those that do not.
-/

namespace PatternMachine

/-- What a run is asked to do. -/
structure Config where
  strategy : Strategy := .depthFirst
  /-- The number of steps after which the run is given up. -/
  maxSteps : Option Int := none
  /-- No counter is increased once it has reached the limit. -/
  limit : Int := defaultLimit

/-- The order of points: by address, then by the number of characters read. -/
def Point.compare (p q : Point) : Ordering :=
  (Ord.compare p.pc q.pc).then (Ord.compare p.sp q.sp)

instance : Std.TransCmp Point.compare :=
  inferInstanceAs (Std.TransCmp (compareLex (compareOn Point.pc) (compareOn Point.sp)))

instance : Std.LawfulEqCmp Point.compare where
  eq_of_compare {p q} h := by
    simp only [Point.compare, Ordering.then_eq_eq, Std.compare_eq_iff_eq] at h
    cases p; cases q; simp_all

/-- The state of a run: the current point, the pending ones, latest first, and the splits followed so far. -/
structure State where
  here : Point := ⟨0, 0⟩
  pending : List Point := []
  seen : Std.TreeSet Point Point.compare := ∅

inductive Progress where
  | going (s : State)
  | ended (answer : Except EvalError Bool)

namespace State

/-- Gives up the current branch. -/
def backtrack (s : State) : Progress :=
  match s.pending with
  | [] => .ended (.ok false)
  | p :: pending => .going { s with here := p, pending }

def follow (s : State) : Move → Progress
  | .read => .going { s with here := ⟨s.here.pc + 1, s.here.sp + 1⟩ }
  | .advance => .going { s with here := ⟨s.here.pc + 1, s.here.sp⟩ }
  | .goto target => .going { s with here := ⟨target, s.here.sp⟩ }
  | .fork first second =>
    if s.seen.contains s.here then s.backtrack
    else .going {
      here := ⟨first, s.here.sp⟩
      pending := ⟨second, s.here.sp⟩ :: s.pending
      seen := s.seen.insert s.here }
  | .fail => s.backtrack
  | .accept => .ended (.ok true)
  | .error e => .ended (.error e)

end State

namespace Machine

/-- One step of a run whose counters have a limit. -/
def step (m : Machine) (limit : Int) (s : State) : Progress :=
  let move := m.move s.here
  match move.overflow? limit s.here with
  | some e => .ended (.error e)
  | none => s.follow move

/-- The answer of a run from a state, if it ends within the given number of steps. -/
def run (m : Machine) (limit : Int) : (steps : Nat) → State → Option (Except EvalError Bool)
  | 0, _ => none
  | steps + 1, s =>
    match m.step limit s with
    | .going s => m.run limit steps s
    | .ended answer => some answer

/-- The run ends, after whatever number of steps. -/
def Halts (m : Machine) (limit : Int) : Prop :=
  ∃ steps answer, m.run limit steps {} = some answer

/-- The number of splits of a program. -/
def splits (m : Machine) : Nat :=
  m.program.countP (·.opcode = .split)

/-- A run that has not ended after so many steps never ends.  Every split is followed once, and gives up its branch
once, for each number of characters read; and between two such events no point can come up twice, unless the run
goes round in circles. -/
def stepBound (m : Machine) : Nat :=
  m.program.size * (m.text.size + 1) * (2 * m.splits * (m.text.size + 1) + 1) + 1

/-- Whether the program matches at the beginning of the text. -/
def accepts (m : Machine) (config : Config := {}) : Except EvalError Bool :=
  match config.strategy, config.maxSteps with
  | .breadthFirst, _ => .error (.unsupported .breadthFirst)
  | .depthFirst, some steps => (m.run config.limit steps.toNat {}).getD (.error (.stepLimit steps))
  | .depthFirst, none => (m.run config.limit m.stepBound {}).getD (.error .endless)

end Machine

end PatternMachine
