import PatternMachine.Code.Assembler
import PatternMachine.Pattern.Basic

/-!
# Tasks

Code generation in small steps.  A task adds an instruction, sets a destination, or leaves the parts of a pattern to
tasks of their own.  A destination that is not known yet is left at `0` and set by a later task:

* alternation: `split L1 L2; L1: first; jump L3; L2: second; L3:`
* option: `split L1 L2; L1: body; L2:`
* one or more: `L1: body; split L1 L2; L2:`
* zero or more: `L1: split L2 L3; L2: body; jump L1; L3:`

The tasks that come of a task cost less than it does, so the work ends.
-/

namespace PatternMachine

/-- A piece of code generation that is still to be done. -/
inductive Task where
  | node (p : Pattern)
  /-- What follows the first branch of an alternation, whose split is at `split`: the jump over the second branch,
  and the second branch. -/
  | elseBranch (split : Nat) (second : Pattern)
  /-- Lets the jump at `jump` lead here. -/
  | exit (jump : Nat)
  /-- Lets the split of an option, at `split`, lead here if the body is skipped. -/
  | skip (split : Nat)
  /-- Ends the body of a repetition that starts at `start`, where the next round begins. -/
  | again (start : Nat)
  /-- Ends the body of a loop whose split is at `start`. -/
  | loop (start : Nat)

/-- A bound on the number of tasks that a task leads to. -/
def Task.cost : Task → Nat
  | node p => 4 * p.size
  | elseBranch _ second => 4 * second.size + 2
  | exit _ | skip _ | again _ | loop _ => 1

/-- What is left when a task has been done: the program, the tasks that come next, before all that were there, and
what went wrong, if anything did. -/
structure Outcome where
  asm : Assembler
  next : List Task := []
  fault : Option CodeError := none

namespace Assembler

/-- The outcome of a single operation on the program. -/
@[inline] def settle (asm : Assembler) : Except CodeError Assembler → Outcome
  | .ok asm => { asm }
  | .error e => { asm, fault := some e }

/-- The outcome of adding an instruction, after which the tasks `next` are to be done. -/
@[inline] def pushThen (asm : Assembler) (i : Instr) (next : List Task) : Outcome :=
  match asm.push i with
  | .ok asm => { asm, next }
  | .error e => { asm, fault := some e }

/-- Begins the code of a pattern.  What belongs to its sub-expressions is left to later tasks. -/
@[inline] def expand (asm : Assembler) : Pattern → Outcome
  | .char text => asm.pushThen (.char text) []
  | .any => asm.pushThen .any []
  | .lineStart => asm.pushThen .lineStart []
  | .lineEnd => asm.pushThen .lineEnd []
  | .plus body => { asm, next := [.node body, .again asm.pc] }
  | .star body => asm.pushThen (.split (asm.pc + 1) 0) [.node body, .loop asm.pc]
  | .opt body => asm.pushThen (.split (asm.pc + 1) 0) [.node body, .skip asm.pc]
  | .alt first second => asm.pushThen (.split (asm.pc + 1) 0) [.node first, .elseBranch asm.pc second]
  | .seq items => { asm, next := items.map .node }
  | .hole => { asm, fault := some .hole }

/-- Adds the jump over the second branch of an alternation and lets its split, at `split`, lead behind the jump.  If
there is no room for the jump, the end of the alternation is left with the address `0`. -/
@[inline] def jumpOver (asm : Assembler) (split : Nat) (second : Pattern) : Outcome :=
  let jump := asm.pc
  match asm.push (.jump 0) with
  | .error e => { asm, next := [.node second, .exit 0], fault := some e }
  | .ok asm =>
    let next := [.node second, .exit jump]
    match asm.redirect split (some .split) CodeError.alternation { second := some asm.pc } with
    | .ok asm => { asm, next }
    | .error e => { asm, next, fault := some e }

/-- Adds the jump back to the split of a loop, at `start`, and lets the split lead behind the jump. -/
@[inline] def closeLoop (asm : Assembler) (start : Nat) : Outcome :=
  match asm.push (.jump start) with
  | .error e => { asm, fault := some e }
  | .ok asm => asm.settle (asm.redirect start (some .split) CodeError.loop { second := some asm.pc })

end Assembler

def Task.perform (asm : Assembler) : Task → Outcome
  | node p => asm.expand p
  | elseBranch split second => asm.jumpOver split second
  | exit jump => asm.settle (asm.redirect jump (some .jump) CodeError.alternation { target := some asm.pc })
  | skip split => asm.settle (asm.redirect split (some .split) CodeError.option { second := some asm.pc })
  | again start => asm.pushThen (.split start (asm.pc + 1)) []
  | loop start => asm.closeLoop start

/-! ### Cost -/

/-- A bound on the number of tasks that the tasks of an agenda lead to. -/
def agendaCost : (agenda : List Task) → Nat
  | [] => 0
  | t :: rest => t.cost + agendaCost rest

theorem agendaCost_append (ts us : List Task) : agendaCost (ts ++ us) = agendaCost ts + agendaCost us := by
  induction ts with
  | nil => simp [agendaCost]
  | cons t ts ih => simp [agendaCost, ih, Nat.add_assoc]

private theorem agendaCost_nodes (ps : List Pattern) : agendaCost (ps.map .node) = 4 * Pattern.sizeAll ps := by
  induction ps with
  | nil => rfl
  | cons p ps ih =>
    simp only [List.map_cons, agendaCost, Task.cost, Pattern.sizeAll, ih]
    omega

/-- The tasks that come of a task cost less than it does. -/
theorem Task.agendaCost_next_lt (asm : Assembler) (t : Task) : agendaCost (t.perform asm).next < t.cost := by
  cases t with
  | node p =>
    cases p with
    | seq items =>
      rw [show (perform asm (.node (.seq items))).next = items.map .node from rfl, agendaCost_nodes]
      simp only [cost, Pattern.size]
      omega
    | plus body => simp only [perform, Assembler.expand, agendaCost, cost, Pattern.size]; omega
    | hole => simp [perform, Assembler.expand, agendaCost, cost, Pattern.size]
    | char _ | any | lineStart | lineEnd | star _ | opt _ | alt _ _ =>
      simp only [perform, Assembler.expand, Assembler.pushThen]
      split <;> simp only [agendaCost, cost, Pattern.size] <;> omega
  | elseBranch split second =>
    simp only [perform, Assembler.jumpOver]
    split
    · simp [agendaCost, cost]
    · split <;> simp [agendaCost, cost]
  | exit jump | skip split | again start | loop start =>
    simp only [perform, Assembler.pushThen, Assembler.closeLoop, Assembler.settle]
    repeat' split
    all_goals simp [agendaCost, cost]

end PatternMachine
