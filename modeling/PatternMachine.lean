import PatternMachine.Code.Layout
import PatternMachine.Code.Session
import PatternMachine.Machine.Limits
import PatternMachine.Machine.Reach
import PatternMachine.Main
import PatternMachine.Pattern.Grammar
import PatternMachine.Pattern.Language
import PatternMachine.Pattern.Splice
import PatternMachine.Pattern.Written
import PatternMachine.Proofs.Code.Assembly
import PatternMachine.Proofs.Code.Decoding
import PatternMachine.Proofs.Code.Flow
import PatternMachine.Proofs.Code.Leftmost
import PatternMachine.Proofs.Code.Meaning
import PatternMachine.Proofs.Code.Missing
import PatternMachine.Proofs.Code.Relocation
import PatternMachine.Proofs.Code.Resumption
import PatternMachine.Proofs.Code.Session
import PatternMachine.Proofs.Code.Shape
import PatternMachine.Proofs.Code.Termination
import PatternMachine.Proofs.Command.Report
import PatternMachine.Proofs.Instr.Listing
import PatternMachine.Proofs.Machine.Backtracking
import PatternMachine.Proofs.Machine.Extension
import PatternMachine.Proofs.Machine.Halting
import PatternMachine.Proofs.Machine.Limits
import PatternMachine.Proofs.Machine.Search
import PatternMachine.Proofs.Machine.Step
import PatternMachine.Proofs.Pattern.Alternation
import PatternMachine.Proofs.Pattern.Anywhere
import PatternMachine.Proofs.Pattern.Composition
import PatternMachine.Proofs.Pattern.EmptyGroup
import PatternMachine.Proofs.Pattern.Outline
import PatternMachine.Proofs.Pattern.Position
import PatternMachine.Proofs.Pattern.Reading
import PatternMachine.Proofs.Pattern.Renaming
import PatternMachine.Proofs.Pattern.Tokens
import PatternMachine.Proofs.Pattern.Viable
import PatternMachine.Proofs.Pattern.Writing
import PatternMachine.Proofs.Regex.Anchor
import PatternMachine.Proofs.Regex.Literal
import PatternMachine.Proofs.Regex.Outcome
import PatternMachine.Proofs.Regex.Renaming
import PatternMachine.Proofs.Regex.Size
import PatternMachine.Proofs.Regex.Unanchored
import PatternMachine.Proofs.Text.Lines
import PatternMachine.Proofs.Text.Quoted
