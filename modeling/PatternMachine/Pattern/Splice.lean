import PatternMachine.Pattern.Basic

/-!
# Grouping

A sequence within a sequence groups some of its items.  `Pattern.splice` puts the items of every sequence into the
sequence that contains it, so an empty one disappears; a body or a branch is read as the sequence of its items too.
-/

namespace PatternMachine.Pattern

mutual

/-- The items of a pattern, none of them a sequence. -/
def splice : Pattern → List Pattern
  | plus body => [.plus (.seq body.splice)]
  | star body => [.star (.seq body.splice)]
  | opt body => [.opt (.seq body.splice)]
  | alt first second => [.alt (.seq first.splice) (.seq second.splice)]
  | seq items => spliceAll items
  | char text => [.char text]
  | any => [.any]
  | lineStart => [.lineStart]
  | lineEnd => [.lineEnd]
  | hole => [.hole]

/-- The items of patterns one after the other. -/
def spliceAll : List Pattern → List Pattern
  | [] => []
  | p :: ps => p.splice ++ spliceAll ps

end

theorem spliceAll_append (ps qs : List Pattern) : spliceAll (ps ++ qs) = spliceAll ps ++ spliceAll qs := by
  induction ps with
  | nil => rfl
  | cons p ps ih => simp [spliceAll, ih]

end PatternMachine.Pattern
