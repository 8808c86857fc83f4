import PatternMachine.Command

/-!
# The command line
-/

open PatternMachine

/-- The number of an operating system error, whichever sign it is given with. -/
private def errorNumber (code : UInt32) : Nat :=
  if code < 0x80000000 then code.toNat else (0 - code).toNat

/-- What the operating system says about a file that cannot be read. -/
private def fileErrorOf : IO.Error → FileError
  | .noFileOrDirectory .. => .missing
  | .inappropriateType _ code _ => if errorNumber code = 20 then .notDirectory else .isDirectory
  | .invalidArgument _ code reason => if errorNumber code = 36 then .nameTooLong else ⟨errorNumber code, reason⟩
  | .permissionDenied _ code reason => ⟨errorNumber code, reason⟩
  | e => ⟨5, toString e⟩

private def readFile (path : String) : IO (Except FileError ByteArray) :=
  try
    return .ok (← IO.FS.readBinFile path)
  catch e =>
    return .error (fileErrorOf e)

/-- Runs the command with the arguments of the process. -/
def main (args : List String) : IO UInt32 := do
  let prog := "regex-grep"
  let contents ← match args with
    | [_, path] => readFile path
    | _ => pure (.error .missing)
  let report := Command.run (fun _ => contents) prog args
  IO.print report.out
  IO.eprint report.err
  match report.status with
  | .success => return 0
  | .failure => return 1
  | .undecodable =>
    IO.eprintln "the file is not valid UTF-8"
    return 1
