import PatternMachine.Instr.Basic

/-!
# The assembler

A program under construction.  Instructions are added at its end as long as the location counter is below a limit,
and the destinations of an instruction that is already there can be set later.  An operation that fails leaves the
program as it was.
-/

namespace PatternMachine

/-- Why a pattern has no code. -/
inductive CodeError where
  /-- The location counter has reached its limit. -/
  | counterOverflow
  /-- A jump or split that belongs to an alternation is not where it should be. -/
  | alternation
  /-- The split that belongs to a loop is not where it should be. -/
  | loop
  /-- The split that belongs to an option is not where it should be. -/
  | option
  /-- A part of the pattern is missing. -/
  | hole
deriving DecidableEq

def CodeError.message : CodeError → String
  | counterOverflow => "program counter overflow while generating code"
  | alternation => "could not patch the targets of an alternation"
  | loop => "could not patch the exit target of a star loop"
  | option => "could not patch the skip target of an option"
  | hole => "Unexpected type for val Construction"

/-- A program under construction. -/
structure Assembler where
  code : Program := #[]
  /-- The location counter: the address that the next instruction will have. -/
  pc : Nat := 0
  /-- No instruction is added once the location counter has reached the limit. -/
  limit : Int := defaultLimit

namespace Assembler

/-- Adds an instruction, whose address is the location counter. -/
@[inline] def push (asm : Assembler) (i : Instr) : Except CodeError Assembler :=
  if asm.limit ≤ asm.pc then .error .counterOverflow
  else .ok { asm with code := asm.code.push i, pc := asm.pc + 1 }

/-- Sets destinations of the instruction at an address, which must be one of the given operation, if one is given.
If there is no such instruction, it fails with `fault`.  The address is one that adding an instruction can have given,
so none counts from the end, and the destinations are all that can be set. -/
@[inline] def redirect {ε : Type} (asm : Assembler) (address : Nat) (expected : Option Opcode) (fault : ε)
    (new : Targets) : Except ε Assembler :=
  match asm.code[address]? with
  | none => .error fault
  | some i =>
    if expected.all (· = i.opcode) then
      .ok { asm with code := asm.code.modify address (·.retarget new) }
    else .error fault

end Assembler

end PatternMachine
