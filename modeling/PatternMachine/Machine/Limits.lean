import PatternMachine.Machine.Run

/-!
# Runs with and without limits

A run one step after the other, the first one being step 1: as far as it gets under the limits of a configuration
(`Machine.limited`), and as it would go on if there were none (`Machine.free`).  `Machine.violation?` says which limit
a step comes up against, from the number of the step and the counters that it increases.
-/

namespace PatternMachine

/-- What a run has come to after so many steps, each of which depends on its number. -/
def Progress.after (step : Nat → State → Progress) : Nat → Progress
  | 0 => .going {}
  | n + 1 =>
    match Progress.after step n with
    | .going s => step (n + 1) s
    | .ended answer => .ended answer

/-- The counters that a move increases, one after the other: the value before, and the error if that has reached the
limit. -/
def Move.increments (p : Point) : Move → List (Int × EvalError)
  | read => [(p.pc, .counterOverflow), (p.sp, .positionOverflow)]
  | advance => [(p.pc, .counterOverflow)]
  | goto _ | fork _ _ | fail | accept | error _ => []

/-- The error says no more than that a limit has been reached. -/
def EvalError.isLimit : EvalError → Bool
  | counterOverflow | positionOverflow | stepLimit _ => true
  | outOfRange _ | misplacedAnchor _ | unsupported _ | illegal | endless => false

namespace Config

/-- The number of a step is too high. -/
def exceeded? (config : Config) (t : Nat) : Option EvalError :=
  config.maxSteps.bind fun steps => if steps < t then some (.stepLimit steps) else none

/-- No limit of the second configuration is lower. -/
structure Loosens (config config' : Config) : Prop where
  limit_le : config.limit ≤ config'.limit
  steps_le : ∀ steps', config'.maxSteps = some steps' → ∃ steps, config.maxSteps = some steps ∧ steps ≤ steps'

end Config

namespace Machine

/-- One step of a run whose steps are not counted and whose counters have no limit. -/
def freeStep (m : Machine) (s : State) : Progress :=
  s.follow (m.move s.here)

/-- The step with the number `t` of a run under the limits of a configuration. -/
def limitedStep (m : Machine) (config : Config) (t : Nat) (s : State) : Progress :=
  match config.exceeded? t with
  | some e => .ended (.error e)
  | none => m.step config.limit s

/-- What the run without limits has come to after so many steps. -/
def free (m : Machine) : Nat → Progress :=
  Progress.after fun _ => m.freeStep

/-- What the run under the limits of a configuration has come to after so many steps. -/
def limited (m : Machine) (config : Config) : Nat → Progress :=
  Progress.after (m.limitedStep config)

/-- The first limit that the step with the number `t` comes up against: that of the steps, or that of the counters
in the order in which the step increases them. -/
def violation? (m : Machine) (config : Config) (t : Nat) (s : State) : Option EvalError :=
  (config.exceeded? t).or (((m.move s.here).increments s.here).findSome? fun (value, e) =>
    if config.limit ≤ value then some e else none)

/-- None of the first `n` steps of the run without limits comes up against one. -/
def Clear (m : Machine) (config : Config) (n : Nat) : Prop :=
  ∀ t < n, ∀ s, m.free t = .going s → m.violation? config (t + 1) s = none

end Machine

end PatternMachine
