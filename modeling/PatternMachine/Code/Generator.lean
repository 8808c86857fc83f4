import PatternMachine.Code.Task

/-!
# Code generation

The code of a pattern, by an agenda of tasks in place of recursion, so that no pattern is nested too deeply.  A task
that fails is gone from the agenda, and so is the code that it would have added; the tasks behind it stay, and the
next call goes on with them.
-/

namespace PatternMachine

/-- A program under construction, with an agenda. -/
structure Generator where
  asm : Assembler := {}
  agenda : List Task := []

namespace Generator

/-- Puts patterns in front of what is on the agenda. -/
def prepend (g : Generator) (ps : List Pattern) : Generator :=
  { g with agenda := ps.map .node ++ g.agenda }

/-- Begins the code of a pattern and puts what belongs to its sub-expressions in front of the agenda. -/
def expand (g : Generator) (p : Pattern) : Generator × Option CodeError :=
  let out := g.asm.expand p
  ({ asm := out.asm, agenda := out.next ++ g.agenda }, out.fault)

/-- Does the tasks of an agenda, until there are none or one fails. -/
def drain (asm : Assembler) : (agenda : List Task) → Generator × Option CodeError
  | [] => ({ asm }, none)
  | t :: rest =>
    let out := t.perform asm
    match out.fault with
    | some e => ({ asm := out.asm, agenda := out.next ++ rest }, some e)
    | none => drain out.asm (out.next ++ rest)
termination_by agenda => agendaCost agenda
decreasing_by
  have := t.agendaCost_next_lt asm
  simp only [agendaCost, agendaCost_append]
  omega

/-- Generates the code of a pattern and of whatever is still on the agenda. -/
def generate (g : Generator) (p : Pattern) : Generator × Option CodeError :=
  drain g.asm (.node p :: g.agenda)

end Generator

/-- The program of a pattern, at most `limit` instructions long: its code, and the instruction to accept. -/
def Pattern.compile (p : Pattern) (limit : Int := defaultLimit) : Except CodeError Program :=
  match Generator.generate { asm := { limit } } p with
  | (_, some e) => .error e
  | (g, none) => (g.asm.push .accept).map (·.code)

end PatternMachine
