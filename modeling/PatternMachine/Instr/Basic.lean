/-!
# Instructions

The instruction set of the matching machine.  A program is an array of instructions, and an address is an index
into it; jumps and splits may hold any integer.
-/

namespace PatternMachine

/-- One step of a program. -/
inductive Instr where
  /-- Reads one character, the only one of `text`; a `text` of any other length never matches. -/
  | char (text : String)
  | any
  /-- Goes on at the start of the line only. -/
  | lineStart
  /-- Accepts at the end of the line only. -/
  | lineEnd
  /-- Accepts, whatever is left of the line. -/
  | accept
  | jump (target : Int)
  /-- Goes on at `first` and, if that leads nowhere, at `second`. -/
  | split (first second : Int)
  /-- No operation of the machine. -/
  | illegal
deriving DecidableEq, Inhabited

/-- A sequence of instructions. -/
abbrev Program := Array Instr

/-- The limit on counters that holds unless another is chosen: the largest signed number of 64 bits. -/
def defaultLimit : Int := 0x7fffffffffffffff

/-- The operation of an instruction, without its operands. -/
inductive Opcode where
  | char
  | any
  | lineStart
  | lineEnd
  | accept
  | jump
  | split
  | illegal
deriving DecidableEq

/-- New destinations for an instruction, each of which may be left out.  The text of a `char` instruction is no
destination: it is never set again. -/
structure Targets where
  target : Option Int := none
  first : Option Int := none
  second : Option Int := none

namespace Instr

def opcode : Instr → Opcode
  | char _ => .char
  | any => .any
  | lineStart => .lineStart
  | lineEnd => .lineEnd
  | accept => .accept
  | jump _ => .jump
  | split _ _ => .split
  | illegal => .illegal

/-- The instruction with those of the new destinations that it has. -/
def retarget (new : Targets) : Instr → Instr
  | jump target => jump (new.target.getD target)
  | split first second => split (new.first.getD first) (new.second.getD second)
  | other => other

end Instr

end PatternMachine
