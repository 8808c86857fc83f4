import PatternMachine.Instr.Basic

/-!
# The matching machine

A program runs over a text that begins at some position of a line.  A `Point` of a run is the address of the next
instruction with the number of characters read; what happens there, the `Move`, depends on the point alone.
-/

namespace PatternMachine

/-- How a run looks for a match. -/
inductive Strategy where
  /-- One branch after the other. -/
  | depthFirst
  /-- All branches at once; the machine does not do this. -/
  | breadthFirst
deriving DecidableEq

def Strategy.name : Strategy → String
  | depthFirst => "SearchStrategy.DEPTH_FIRST"
  | breadthFirst => "SearchStrategy.BREADTH_FIRST"

/-- Why a run has no answer. -/
inductive EvalError where
  /-- The program counter has reached its limit. -/
  | counterOverflow
  /-- The number of characters read has reached its limit. -/
  | positionOverflow
  /-- There is no instruction at the address. -/
  | outOfRange (pc : Int)
  /-- The line-start instruction stands at an address other than the first. -/
  | misplacedAnchor (pc : Int)
  /-- The run has not ended after the steps it was given. -/
  | stepLimit (steps : Int)
  | unsupported (strategy : Strategy)
  /-- An instruction is no operation of the machine. -/
  | illegal
  | endless
deriving DecidableEq

def EvalError.message : EvalError → String
  | counterOverflow => "program counter overflow during evaluation"
  | positionOverflow => "scan pointer overflow during evaluation"
  | outOfRange pc => s!"program counter out of range: pc = {pc}"
  | misplacedAnchor pc => s!"\x27^\x27 is only supported at the start of the regex: pc = {pc}"
  | stepLimit steps => s!"evaluation exceeded {steps} steps"
  | unsupported strategy => "unsupported search strategy: " ++ strategy.name
  | illegal => "not an instruction"
  | endless => "the evaluation never ends"

/-- A program with the text that it runs over and the position of that text in its line. -/
structure Machine where
  program : Program
  text : Array Char
  start : Int := 0

/-! ### Points and moves -/

/-- An address and a number of characters read. -/
structure Point where
  pc : Int
  sp : Nat
deriving DecidableEq

/-- What an instruction makes of a point. -/
inductive Move where
  /-- On to the next instruction, one character further. -/
  | read
  | advance
  | goto (target : Int)
  /-- On to `first`, with `second` pending. -/
  | fork (first second : Int)
  | fail
  | accept
  | error (e : EvalError)
deriving DecidableEq

namespace Machine

def move (m : Machine) (p : Point) : Move :=
  if p.pc < 0 then .error (.outOfRange p.pc)
  else match m.program[p.pc.toNat]? with
  | none => .error (.outOfRange p.pc)
  | some (.char text) =>
    match m.text[p.sp]? with
    | none => .fail
    | some c => if text = String.singleton c then .read else .fail
  | some .any => if p.sp < m.text.size then .read else .fail
  | some .lineStart =>
    if p.pc ≠ 0 then .error (.misplacedAnchor p.pc)
    else if m.start ≠ 0 then .fail
    else .advance
  | some .lineEnd => if p.sp = m.text.size then .accept else .fail
  | some .accept => .accept
  | some (.jump target) => .goto target
  | some (.split first second) => .fork first second
  | some .illegal => .error .illegal

end Machine

/-- The error of a move that would increase a counter past the limit.  The program counter is looked at first. -/
def Move.overflow? (limit : Int) (p : Point) : Move → Option EvalError
  | read =>
    if limit ≤ p.pc then some .counterOverflow
    else if limit ≤ p.sp then some .positionOverflow
    else none
  | advance => if limit ≤ p.pc then some .counterOverflow else none
  | _ => none

end PatternMachine
