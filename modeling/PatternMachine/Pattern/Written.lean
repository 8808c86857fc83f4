import PatternMachine.Pattern.Parser

/-!
# Writing patterns

A pattern as the text of a regular expression, with parentheses around every alternation or concatenation that is
an item of its own, and the shape of the patterns that can be written: an alternation of non-empty concatenations,
nested to the right.
-/

namespace PatternMachine

/-- An ordinary character, behind a backslash if it would be an operator otherwise. -/
def writtenChar (c : Char) : List Char :=
  if isEscapable c then ['\\', c] else [c]

/-- A text between parentheses, if it is an item. -/
def parenthesised (isItem : Bool) (text : List Char) : List Char :=
  if isItem then '(' :: text ++ [')'] else text

namespace Pattern

mutual

/-- The text of a pattern, as an item or as a whole expression. -/
def written (isItem : Bool) : Pattern → List Char
  | char text => text.toList.flatMap writtenChar
  | any => ['.']
  | lineStart => ['^']
  | lineEnd => ['$']
  | plus body => body.written true ++ ['+']
  | star body => body.written true ++ ['*']
  | opt body => body.written true ++ ['?']
  | alt first second => parenthesised isItem (first.written false ++ '|' :: second.written false)
  | seq items => parenthesised isItem (writtenAll items)
  | hole => []

/-- The texts of the items of a concatenation, one after the other. -/
def writtenAll : List Pattern → List Char
  | [] => []
  | p :: ps => p.written true ++ writtenAll ps

end

mutual

/-- Whether the pattern is an alternation of non-empty concatenations, nested to the right, or, as an item, one of
these, a single character, an anchor, or an item under a quantifier. -/
def isWritable (isItem : Bool) : Pattern → Bool
  | char text => isItem && text.length == 1 && text.toList.all (!".^$".toList.contains ·)
  | any | lineStart | lineEnd => isItem
  | plus body | star body | opt body => isItem && body.isWritable true
  | alt (seq items) second => !items.isEmpty && areWritable items && second.isWritable false
  | seq items => !items.isEmpty && areWritable items
  | alt _ _ | hole => false

/-- Whether all the patterns are writable as items. -/
def areWritable : List Pattern → Bool
  | [] => true
  | p :: ps => p.isWritable true && areWritable ps

end

end Pattern

end PatternMachine
