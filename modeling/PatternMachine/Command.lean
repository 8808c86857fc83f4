import PatternMachine.Regex
import PatternMachine.Text.Reading

/-!
# The command

`<program> <regex> <file>` describes the regular expression and then reports the lines of the file in which it
matches, each with its number and the first position of a match.  The report ends at the first error.
-/

namespace PatternMachine

/-- Why a file cannot be read: the number and the words with which an operating system says so. -/
structure FileError where
  number : Nat
  reason : String
deriving DecidableEq

namespace FileError

def missing : FileError := ⟨2, "No such file or directory"⟩

def notDirectory : FileError := ⟨20, "Not a directory"⟩

def isDirectory : FileError := ⟨21, "Is a directory"⟩

/-- A name in the path, or the whole path, is longer than any can be. -/
def nameTooLong : FileError := ⟨36, "File name too long"⟩

def message (e : FileError) (path : String) : String :=
  s!"[Errno {e.number}] {e.reason}: " ++ Text.quoted path

end FileError

namespace Command

inductive Status where
  | success
  | failure
  /-- The file has turned out to be no text. -/
  | undecodable
deriving DecidableEq

/-- What the command writes to its two outputs, and how it ends. -/
structure Report where
  out : String := ""
  err : String := ""
  status : Status := .success

/-- The report that ends with an error. -/
def Report.fail (prog out message : String) : Report :=
  { out, err := prog ++ ": error: " ++ message ++ "\n", status := .failure }

def hitLine (path : String) (number position : Nat) (line : String) : String :=
  s!"{path}:{number}:{position}: {line}\n"

/-- Reports the matches in the lines of a file, the first of which has the given number, behind what has been
written to `out`.  The report ends with the status `last`, unless there is an error before. -/
def reportLines (prog path : String) (program : Program) (last : Status) : (number : Nat) → (out : String) →
    List String → Report
  | _, out, [] => { out, status := last }
  | number, out, line :: lines =>
    match program.scan line with
    | .error e => .fail prog out e.message
    | .ok none => reportLines prog path program last (number + 1) out lines
    | .ok (some position) =>
      reportLines prog path program last (number + 1) (out ++ hitLine path number position line) lines

/-- What the command writes before it looks at the file: the description of the regular expression, as whole
lines. -/
def preamble (regex : String) : Except Regex.Error String :=
  (Regex.description regex).map (· ++ "\n")

/-- Describes a regular expression and reports its matches in the file at a path. -/
def report (read : String → Except FileError ByteArray) (prog regex path : String) : Report :=
  match preamble regex with
  | .error e => .fail prog "" e.message
  | .ok out =>
    match Regex.compile regex with
    | .error e => .fail prog out e.message
    | .ok program =>
      match read path with
      | .error e => .fail prog out (e.message path)
      | .ok bytes =>
        let file := Text.read bytes
        reportLines prog path program (if file.isText then .success else .undecodable) 1 out file.lines

/-- What the command does with its arguments, where `read` gives the contents of files. -/
def run (read : String → Except FileError ByteArray) (prog : String) : (args : List String) → Report
  | [regex, path] => report read prog regex path
  | _ => { err := "Usage: " ++ prog ++ " <regex> <file>\n", status := .failure }

end Command

end PatternMachine
