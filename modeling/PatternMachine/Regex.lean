import PatternMachine.Code.Generator
import PatternMachine.Instr.Listing
import PatternMachine.Machine.Scan
import PatternMachine.Pattern.Outline
import PatternMachine.Pattern.Parser

/-!
# Regular expressions as text

From the text of a regular expression to its program, to the answer whether it matches, and to a description that
shows its pattern and its program.
-/

namespace PatternMachine.Regex

/-- What can go wrong with a regular expression. -/
inductive Error where
  | parse (e : ParseError)
  | code (e : CodeError)
  | listing (e : ListingError)
  | eval (e : EvalError)
deriving DecidableEq

def Error.message : Error → String
  | parse e => e.message
  | code e => e.message
  | listing e => e.message
  | eval e => e.message

/-- The program of a regular expression, at most `limit` instructions long. -/
def compile (regex : String) (limit : Int := defaultLimit) : Except Error Program := do
  let p ← (Pattern.parse regex).mapError .parse
  (p.compile limit).mapError .code

/-- Whether a regular expression matches at the beginning of a text. -/
def matchesStart (regex text : String) (config : Config := {}) : Except Error Bool := do
  let program ← compile regex config.limit
  (Machine.accepts { program, text := text.toList.toArray } config).mapError .eval

/-- A regular expression with the outline of its pattern and the listing of its program. -/
def description (regex : String) : Except Error String := do
  let p ← (Pattern.parse regex).mapError .parse
  let program ← p.compile.mapError .code
  let code ← (listing program).mapError .listing
  return "# regex: " ++ regex ++ "\n## AST\n" ++ p.outline ++ "\n## code\n" ++ code

end PatternMachine.Regex
