import PatternMachine.Pattern.Parser

/-!
# The grammar of regular expressions

The language that `Pattern.parse` reads, as a grammar over tokens: `Items w ps` says that the tokens `w` form a
concatenation with the items `ps`, and `Body w p?` that they form an expression with the pattern `p?`, or an empty
one.  A token string is extended at its right end, so a quantifier belongs to whatever item is the last one then,
also if an empty group stands between them.
-/

namespace PatternMachine

/-- The tokens of a text; nothing, if a backslash stands before a character that it does not turn into an ordinary
one, or at the end. -/
def Token.ofText? : List Char → Option (List Token)
  | [] => some []
  | ['\\'] => none
  | '\\' :: c :: rest => if isEscapable c then (ofText? rest).map (.literal c :: ·) else none
  | c :: rest => (ofText? rest).map (.ofChar c :: ·)

mutual

/-- The tokens form a concatenation with these items. -/
inductive Items : List Token → List Pattern → Prop where
  | nil : Items [] []
  | atom {w : List Token} {ps : List Pattern} (p : Pattern) : Items w ps → Items (w ++ [.atom p]) (ps ++ [p])
  | quantified {w : List Token} {ps : List Pattern} {p : Pattern} (q : Quantifier) :
    Items w (ps ++ [p]) → Items (w ++ [.quantifier q]) (ps ++ [q.apply p])
  | emptyGroup {w v : List Token} {ps : List Pattern} :
    Items w ps → Body v none → Items (w ++ .left :: (v ++ [.right])) ps
  | group {w v : List Token} {ps : List Pattern} {p : Pattern} :
    Items w ps → Body v (some p) → Items (w ++ .left :: (v ++ [.right])) (ps ++ [p])

/-- The tokens form an expression with this pattern, or an empty expression. -/
inductive Body : List Token → Option Pattern → Prop where
  | empty {w : List Token} : Items w [] → Body w none
  | single {w : List Token} {ps : List Pattern} : Items w ps → ps ≠ [] → Body w (some (.seq ps))
  | emptyLast {w v : List Token} {ps : List Pattern} :
    Items w ps → ps ≠ [] → Items v [] → Body (w ++ .bar :: v) (some (.seq ps))
  | more {w v : List Token} {ps : List Pattern} {p : Pattern} :
    Items w ps → ps ≠ [] → Body v (some p) → Body (w ++ .bar :: v) (some (.alt (.seq ps) p))

end

end PatternMachine
