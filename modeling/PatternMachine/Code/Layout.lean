import PatternMachine.Instr.Basic
import PatternMachine.Pattern.Basic

/-!
# The layout of code

The code of a pattern at an address, by recursion on the pattern: every destination is computed from the widths of
the parts, and nothing is set later.
-/

namespace PatternMachine.Pattern

mutual

/-- The number of instructions of a pattern. -/
def width : Pattern → Nat
  | char _ | any | lineStart | lineEnd => 1
  | plus body | opt body => body.width + 1
  | star body => body.width + 2
  | alt first second => first.width + second.width + 2
  | seq items => widthAll items
  | hole => 0

/-- The number of instructions of patterns one after the other. -/
def widthAll : List Pattern → Nat
  | [] => 0
  | p :: ps => p.width + widthAll ps

end

mutual

/-- The code of a pattern that begins at the address `base`. -/
def code (base : Nat) : Pattern → List Instr
  | char text => [.char text]
  | any => [.any]
  | lineStart => [.lineStart]
  | lineEnd => [.lineEnd]
  | plus body => body.code base ++ [.split base (base + body.width + 1 : Nat)]
  | star body => .split (base + 1 : Nat) (base + body.width + 2 : Nat) :: (body.code (base + 1) ++ [.jump base])
  | opt body => .split (base + 1 : Nat) (base + body.width + 1 : Nat) :: body.code (base + 1)
  | alt first second =>
    .split (base + 1 : Nat) (base + first.width + 2 : Nat) :: (first.code (base + 1) ++
      .jump (base + first.width + second.width + 2 : Nat) :: second.code (base + first.width + 2))
  | seq items => codeAll base items
  | hole => []

/-- The code of patterns one after the other, the first of which begins at the address `base`. -/
def codeAll (base : Nat) : List Pattern → List Instr
  | [] => []
  | p :: ps => p.code base ++ codeAll (base + p.width) ps

end

mutual

theorem length_code (p : Pattern) (base : Nat) : (p.code base).length = p.width := by
  cases p with
  | plus body => simp [code, width, length_code body]
  | star body => simp [code, width, length_code body]
  | opt body => simp [code, width, length_code body]
  | alt first second => simp [code, width, length_code first, length_code second]; omega
  | seq items => simp [code, width, length_codeAll items]
  | _ => rfl

theorem length_codeAll (ps : List Pattern) (base : Nat) : (codeAll base ps).length = widthAll ps := by
  cases ps with
  | nil => rfl
  | cons p ps => simp [codeAll, widthAll, length_code p, length_codeAll ps]

end

theorem widthAll_append (ps qs : List Pattern) : widthAll (ps ++ qs) = widthAll ps + widthAll qs := by
  induction ps with
  | nil => simp [widthAll]
  | cons p ps ih => simp [widthAll, ih, Nat.add_assoc]

/-! ### Missing parts -/

mutual

/-- The number of instructions before the first missing part of a pattern; nothing, if no part is missing. -/
def widthToHole? : Pattern → Option Nat
  | char _ | any | lineStart | lineEnd => none
  | plus body => body.widthToHole?
  | star body | opt body => body.widthToHole?.map (1 + ·)
  | alt first second =>
    (first.widthToHole?.map (1 + ·)).or (second.widthToHole?.map (first.width + 2 + ·))
  | seq items => widthToHoleAll? items
  | hole => some 0

/-- The number of instructions before the first missing part of patterns one after the other. -/
def widthToHoleAll? : List Pattern → Option Nat
  | [] => none
  | p :: ps => p.widthToHole?.or ((widthToHoleAll? ps).map (p.width + ·))

end

mutual

theorem widthToHole?_eq_none_iff (p : Pattern) : p.widthToHole? = none ↔ p.isComplete := by
  cases p with
  | plus body | star body | opt body => simp [widthToHole?, isComplete, widthToHole?_eq_none_iff body]
  | alt first second =>
    simp [widthToHole?, isComplete, widthToHole?_eq_none_iff first, widthToHole?_eq_none_iff second]
  | seq items => exact widthToHoleAll?_eq_none_iff items
  | _ => simp [widthToHole?, isComplete]

private theorem widthToHoleAll?_eq_none_iff (ps : List Pattern) : widthToHoleAll? ps = none ↔ areComplete ps := by
  cases ps with
  | nil => simp [widthToHoleAll?, areComplete]
  | cons p ps =>
    simp [widthToHoleAll?, areComplete, widthToHole?_eq_none_iff p, widthToHoleAll?_eq_none_iff ps]

end

end PatternMachine.Pattern
