import PatternMachine.Pattern.Basic

/-!
# Reading patterns

A regular expression is read from left to right in one pass.  A backslash turns the operator after it into an
ordinary character; every other character is a `Token` of its own.  A `Scanner` holds the open levels: that of the
whole expression and one for each group that is not closed yet, each with the finished branches of its alternation
and the items of the current one.

An empty group leaves no trace, so a quantifier behind it belongs to the item before it, and an empty last branch
is dropped; any other empty branch is an error.  Errors are reported where they are noticed: at the first character
after which no continuation can be read, or at the end.
-/

namespace PatternMachine

/-- What is wrong with the text of a regular expression. -/
inductive ParseError where
  /-- The backslash before position `pos` is followed by a character that it cannot turn into an ordinary one, or
  by the end of the text. -/
  | invalidEscape (pos : Nat) (char : Option Char)
  /-- There is no open group that the parenthesis at `pos` could close. -/
  | unopenedGroup (pos : Nat)
  /-- There is nothing before the operator at `pos` that it could apply to. -/
  | nothingBefore (pos : Nat)
  /-- A group is still open at the end. -/
  | unclosedGroup
  | empty
deriving DecidableEq

def ParseError.message : ParseError → String
  | invalidEscape pos (some c) => s!"invalid escape: pos = {pos}, char = \x27{c}\x27"
  | invalidEscape pos none => s!"invalid escape: pos = {pos}, char = \x27\x27"
  | unopenedGroup pos => s!"invalid right parenthesis: pos = {pos}"
  | nothingBefore pos => s!"no previous expression: pos = {pos}"
  | unclosedGroup => "no right parenthesis"
  | empty => "empty expression"

/-! ### Tokens -/

/-- How often the item before it may occur. -/
inductive Quantifier where
  | plus
  | star
  | opt
deriving DecidableEq

/-- An item under a quantifier. -/
def Quantifier.apply : Quantifier → Pattern → Pattern
  | plus => .plus
  | star => .star
  | opt => .opt

/-- What a character of a regular expression stands for. -/
inductive Token where
  | atom (p : Pattern)
  | quantifier (q : Quantifier)
  | left
  | right
  | bar

/-- The token of an ordinary character. -/
def Token.literal (c : Char) : Token :=
  .atom (.char (String.singleton c))

/-- The token of a character that no backslash precedes. -/
def Token.ofChar : Char → Token
  | '.' => .atom .any
  | '^' => .atom .lineStart
  | '$' => .atom .lineEnd
  | '+' => .quantifier .plus
  | '*' => .quantifier .star
  | '?' => .quantifier .opt
  | '(' => .left
  | ')' => .right
  | '|' => .bar
  | c => .literal c

/-- Whether a backslash turns the character into an ordinary one. -/
def isEscapable (c : Char) : Bool :=
  "\\()|+*?".toList.contains c

/-! ### Levels -/

/-- The alternation of the branches, nested to the right; nothing, if there are none. -/
def Pattern.alternation? (branches : List Pattern) : Option Pattern :=
  match branches.reverse with
  | [] => none
  | last :: before => some (before.foldl (fun folded branch => .alt branch folded) last)

/-- The part of an expression, or of a group, that has been read: the finished branches and the items of the
current one, both latest first. -/
structure Level where
  items : List Pattern := []
  branches : List Pattern := []

def Level.push (level : Level) (p : Pattern) : Level :=
  { level with items := p :: level.items }

def Level.endBranch (level : Level) : Level :=
  { items := [], branches := .seq level.items.reverse :: level.branches }

/-- The pattern of a level that ends here; nothing, if it is empty.  A last branch without items is dropped. -/
def Level.pattern? (level : Level) : Option Pattern :=
  let level := if level.items.isEmpty then level else level.endBranch
  Pattern.alternation? level.branches.reverse

/-! ### The scanner -/

/-- The state between two characters: their position, whether a backslash has just been read, the innermost open
level and the levels around it, innermost first. -/
structure Scanner where
  pos : Nat := 0
  escaped : Bool := false
  level : Level := {}
  outer : List Level := []

namespace Scanner

def feed (s : Scanner) : Token → Except ParseError Scanner
  | .atom p => .ok { s with level := s.level.push p }
  | .quantifier q =>
    match s.level.items with
    | [] => .error (.nothingBefore s.pos)
    | p :: ps => .ok { s with level := { s.level with items := q.apply p :: ps } }
  | .left => .ok { s with level := {}, outer := s.level :: s.outer }
  | .right =>
    match s.outer with
    | [] => .error (.unopenedGroup s.pos)
    | around :: outer =>
      let level := match s.level.pattern? with
        | none => around
        | some p => around.push p
      .ok { s with level, outer }
  | .bar =>
    if s.level.items.isEmpty then .error (.nothingBefore s.pos)
    else .ok { s with level := s.level.endBranch }

def step (s : Scanner) (c : Char) : Except ParseError Scanner := do
  let next ←
    if s.escaped then
      if isEscapable c then
        ({ s with escaped := false }).feed (.literal c)
      else
        .error (.invalidEscape s.pos (some c))
    else if c = '\\' then
      .ok { s with escaped := true }
    else
      s.feed (.ofChar c)
  return { next with pos := s.pos + 1 }

/-- The pattern that has been read when the text ends. -/
def finish (s : Scanner) : Except ParseError Pattern :=
  if s.escaped then .error (.invalidEscape s.pos none)
  else if !s.outer.isEmpty then .error .unclosedGroup
  else
    match s.level.pattern? with
    | none => .error .empty
    | some p => .ok p

end Scanner

/-- The pattern that a regular expression denotes. -/
def Pattern.parse (regex : String) : Except ParseError Pattern := do
  let s ← regex.toList.foldlM Scanner.step {}
  s.finish

end PatternMachine
