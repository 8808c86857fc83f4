/-!
# Lines of a text

A line ends at a line feed, at a carriage return, or at the two together, which count once.  The last line of a
text needs no terminator, but an empty one there is no line.
-/

namespace PatternMachine.Text

/-- The lines of a text of which part has been read: `line` holds the characters of the current line and `done`
the lines before it, both latest first. -/
def linesFrom (line : List Char) (done : List String) : List Char → List String
  | [] => if line.isEmpty then done.reverse else (String.ofList line.reverse :: done).reverse
  | '\r' :: '\n' :: rest => linesFrom [] (String.ofList line.reverse :: done) rest
  | '\r' :: rest => linesFrom [] (String.ofList line.reverse :: done) rest
  | '\n' :: rest => linesFrom [] (String.ofList line.reverse :: done) rest
  | c :: rest => linesFrom (c :: line) done rest

/-- The lines of a text, without their terminators. -/
def lines (text : String) : List String :=
  linesFrom [] [] text.toList

/-- The lines that have ended for certain in the part of a text that is given, latest character first.  A carriage
return at its end has not ended a line yet, as a line feed may follow. -/
def endedLines (latestFirst : List Char) : List String :=
  let settled := match latestFirst with
    | '\r' :: before => before
    | other => other
  linesFrom [] [] (settled.dropWhile fun c => c ≠ '\n' && c ≠ '\r').reverse

end PatternMachine.Text
