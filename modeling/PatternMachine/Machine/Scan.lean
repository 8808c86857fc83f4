import PatternMachine.Machine.Run

/-!
# Scanning a line

A program is tried at every position of a line, from left to right, up to the first one at which it matches the
rest of the line.  The position behind the last character is not tried.
-/

namespace PatternMachine

/-- The first position at which a program matches, if there is one; `rest` is what follows the position `start`. -/
def Program.scanFrom (program : Program) (config : Config) (start : Nat) : (rest : List Char) →
    Except EvalError (Option Nat)
  | [] => .ok none
  | c :: rest =>
    match Machine.accepts { program, text := (c :: rest).toArray, start } config with
    | .error e => .error e
    | .ok true => .ok (some start)
    | .ok false => program.scanFrom config (start + 1) rest

/-- The first position of a line at which a program matches, if there is one. -/
def Program.scan (program : Program) (line : String) (config : Config := {}) : Except EvalError (Option Nat) :=
  program.scanFrom config 0 line.toList

end PatternMachine
