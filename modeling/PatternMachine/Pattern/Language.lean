import PatternMachine.Pattern.Basic

/-!
# The meaning of patterns

What a pattern matches in a text, by recursion on the pattern and without reference to any program.  A pattern runs
from one position of the text to another, `Pattern.Runs`, or it ends the match at once at some position,
`Pattern.Accepts`, which is what the end of the line does.  The text begins at the position `start` of its line.
-/

namespace PatternMachine

/-- One position leads to another in any number of rounds. -/
inductive Rounds (r : Nat → Nat → Prop) : Nat → Nat → Prop where
  | none (i : Nat) : Rounds r i i
  | more {i j k : Nat} : r i j → Rounds r j k → Rounds r i k

namespace Pattern

mutual

/-- The pattern can be read from the first position to the second. -/
def Runs (text : Array Char) (start : Int) : Pattern → Nat → Nat → Prop
  | char s, i, j => (∃ c, text[i]? = some c ∧ s = String.singleton c) ∧ j = i + 1
  | any, i, j => i < text.size ∧ j = i + 1
  | lineStart, i, j => start = 0 ∧ j = i
  | lineEnd, _, _ => False
  | plus body, i, k => ∃ j, Runs text start body i j ∧ Rounds (Runs text start body) j k
  | star body, i, j => Rounds (Runs text start body) i j
  | opt body, i, j => j = i ∨ Runs text start body i j
  | alt first second, i, j => Runs text start first i j ∨ Runs text start second i j
  | seq items, i, j => RunsAll text start items i j
  | hole, _, _ => False

/-- The patterns can be read one after the other from the first position to the second. -/
def RunsAll (text : Array Char) (start : Int) : List Pattern → Nat → Nat → Prop
  | [], i, j => i = j
  | p :: ps, i, k => ∃ j, Runs text start p i j ∧ RunsAll text start ps j k

end

mutual

/-- The pattern can end the match when it is read from the position. -/
def Accepts (text : Array Char) (start : Int) : Pattern → Nat → Prop
  | char _, _ | any, _ | lineStart, _ | hole, _ => False
  | lineEnd, i => i = text.size
  | plus body, i | star body, i => ∃ j, Rounds (Runs text start body) i j ∧ Accepts text start body j
  | opt body, i => Accepts text start body i
  | alt first second, i => Accepts text start first i ∨ Accepts text start second i
  | seq items, i => AcceptsAll text start items i

/-- One of the patterns can end the match after those before it have been read from the position. -/
def AcceptsAll (text : Array Char) (start : Int) : List Pattern → Nat → Prop
  | [], _ => False
  | p :: ps, i => Accepts text start p i ∨ ∃ j, Runs text start p i j ∧ AcceptsAll text start ps j

end

/-- The pattern matches from the position on, whatever is left of the text. -/
def Matches (text : Array Char) (start : Int) (p : Pattern) (i : Nat) : Prop :=
  p.Accepts text start i ∨ ∃ j, p.Runs text start i j

end Pattern

end PatternMachine
