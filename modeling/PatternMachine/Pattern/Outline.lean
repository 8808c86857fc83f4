import PatternMachine.Pattern.Preorder
import PatternMachine.Text.Quoted

/-!
# Outlines

A pattern written as an indented tree: one line for each node, in preorder, two columns further in for each level.
-/

namespace PatternMachine

/-- The name of a node in an outline. -/
def Node.label : Node → String
  | char text => "Char " ++ Text.quoted text
  | any => "Dot"
  | lineStart => "Caret"
  | lineEnd => "Dollar"
  | plus => "Plus"
  | star => "Star"
  | opt => "Question"
  | alt => "Or"
  | seq _ => "Seq"
  | hole => "Construction"

/-- The line of an outline for a node at a depth. -/
def outlineLine (depth : Nat) (node : Node) : String :=
  String.ofList (List.replicate (2 * depth) ' ') ++ node.label

/-- A pattern as an indented tree. -/
def Pattern.outline (p : Pattern) : String :=
  "\n".intercalate (p.levels.map fun (depth, node) => outlineLine depth node)

end PatternMachine
