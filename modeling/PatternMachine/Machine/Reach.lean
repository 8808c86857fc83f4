import PatternMachine.Machine.Basic

/-!
# Reachable points

Where a machine can get, whatever the order in which it tries its branches, and what comes of trying the second
branch of every split when, and only when, the first one has led nowhere, without remembering anything.
-/

namespace PatternMachine

/-- The points that a move leads to. -/
def Move.targets (p : Point) : Move → List Point
  | read => [⟨p.pc + 1, p.sp + 1⟩]
  | advance => [⟨p.pc + 1, p.sp⟩]
  | goto target => [⟨target, p.sp⟩]
  | fork first second => [⟨first, p.sp⟩, ⟨second, p.sp⟩]
  | fail | accept | error _ => []

namespace Machine

/-- The error that comes up at a point, if there is one. -/
def error? (m : Machine) (limit : Int) (p : Point) : Option EvalError :=
  match m.move p with
  | .error e => some e
  | move => move.overflow? limit p

/-- The second point comes directly after the first one. -/
def Leads (m : Machine) (limit : Int) (p q : Point) : Prop :=
  m.error? limit p = none ∧ q ∈ (m.move p).targets p

/-- The second point comes after the first one in any number of steps. -/
inductive Reaches (m : Machine) (limit : Int) : Point → Point → Prop where
  | refl (p : Point) : Reaches m limit p p
  | tail {p q r : Point} : Reaches m limit p q → m.Leads limit q r → Reaches m limit p r

/-- Backtracking from a point ends with the answer. -/
inductive Explores (m : Machine) (limit : Int) : Point → Except EvalError Bool → Prop where
  | error {p : Point} {e : EvalError} : m.error? limit p = some e → Explores m limit p (.error e)
  | accept {p : Point} : m.move p = .accept → Explores m limit p (.ok true)
  | fail {p : Point} : m.move p = .fail → Explores m limit p (.ok false)
  | on {p q : Point} {answer : Except EvalError Bool} :
    m.error? limit p = none → (m.move p).targets p = [q] → Explores m limit q answer → Explores m limit p answer
  | first {p q r : Point} {answer : Except EvalError Bool} :
    (m.move p).targets p = [q, r] → Explores m limit q answer → answer ≠ .ok false → Explores m limit p answer
  | second {p q r : Point} {answer : Except EvalError Bool} :
    (m.move p).targets p = [q, r] → Explores m limit q (.ok false) → Explores m limit r answer →
      Explores m limit p answer

end Machine

end PatternMachine
