/-!
# Patterns

The syntax trees of regular expressions.  A tree is its root `Pattern.node`, which says what kind of expression it
is, together with the list `Pattern.children` of its immediate sub-expressions; `Pattern.size` counts its nodes.
-/

namespace PatternMachine

inductive Pattern where
  /-- One character, the only one of `text`; a `text` of any other length matches nothing. -/
  | char (text : String)
  | any
  /-- The start of the line; consumes nothing. -/
  | lineStart
  /-- The end of the line; consumes nothing. -/
  | lineEnd
  /-- One or more occurrences. -/
  | plus (body : Pattern)
  /-- Zero or more occurrences. -/
  | star (body : Pattern)
  /-- Zero or one occurrence. -/
  | opt (body : Pattern)
  /-- Either of two expressions, the first one being tried first. -/
  | alt (first second : Pattern)
  | seq (items : List Pattern)
  /-- A place where an expression is still missing: it has a place in the tree, but no code. -/
  | hole
deriving Inhabited

/-- A node of a pattern without what hangs below it. -/
inductive Node where
  | char (text : String)
  | any
  | lineStart
  | lineEnd
  | plus
  | star
  | opt
  | alt
  | seq (arity : Nat)
  | hole
deriving DecidableEq

namespace Pattern

/-- The root of a pattern. -/
def node : Pattern → Node
  | char text => .char text
  | any => .any
  | lineStart => .lineStart
  | lineEnd => .lineEnd
  | plus _ => .plus
  | star _ => .star
  | opt _ => .opt
  | alt _ _ => .alt
  | seq items => .seq items.length
  | hole => .hole

/-- The immediate sub-expressions of a pattern, from left to right. -/
def children : Pattern → List Pattern
  | char _ | any | lineStart | lineEnd | hole => []
  | plus body | star body | opt body => [body]
  | alt first second => [first, second]
  | seq items => items

/-! ### Size -/

mutual

/-- The number of nodes of a pattern. -/
def size : Pattern → Nat
  | char _ | any | lineStart | lineEnd | hole => 1
  | plus body | star body | opt body => body.size + 1
  | alt first second => first.size + second.size + 1
  | seq items => sizeAll items + 1

/-- The number of nodes of all the patterns of a list. -/
def sizeAll : List Pattern → Nat
  | [] => 0
  | p :: ps => p.size + sizeAll ps

end

theorem sizeAll_append (ps qs : List Pattern) : sizeAll (ps ++ qs) = sizeAll ps + sizeAll qs := by
  induction ps with
  | nil => simp [sizeAll]
  | cons p ps ih => simp [sizeAll, ih, Nat.add_assoc]

theorem size_eq (p : Pattern) : p.size = sizeAll p.children + 1 := by
  cases p <;> simp [size, sizeAll, children]

theorem size_le_of_mem {p : Pattern} {ps : List Pattern} (h : p ∈ ps) : p.size ≤ sizeAll ps := by
  induction ps with
  | nil => cases h
  | cons q ps ih =>
    rw [sizeAll]
    rcases List.mem_cons.1 h with rfl | h
    · exact Nat.le_add_right _ _
    · exact Nat.le_trans (ih h) (Nat.le_add_left _ _)

/-- What holds of a pattern whenever it holds of its sub-expressions holds of every pattern. -/
theorem induction_children {P : Pattern → Prop} (h : ∀ p, (∀ c ∈ p.children, P c) → P p) (p : Pattern) : P p := by
  induction hn : p.size using Nat.strongRecOn generalizing p with
  | ind n ih =>
    subst hn
    refine h p fun c hc => ih c.size ?_ c rfl
    have hle := size_le_of_mem hc
    rw [size_eq p]
    omega

/-! ### Complete patterns -/

mutual

/-- Whether no part of the pattern is missing. -/
def isComplete : Pattern → Bool
  | char _ | any | lineStart | lineEnd => true
  | plus body | star body | opt body => body.isComplete
  | alt first second => first.isComplete && second.isComplete
  | seq items => areComplete items
  | hole => false

/-- Whether no part of any of the patterns is missing. -/
def areComplete : List Pattern → Bool
  | [] => true
  | p :: ps => p.isComplete && areComplete ps

end

theorem areComplete_iff {ps : List Pattern} : areComplete ps ↔ ∀ p ∈ ps, p.isComplete := by
  induction ps with
  | nil => simp [areComplete]
  | cons p ps ih => simp [areComplete, ih]

end Pattern

end PatternMachine
