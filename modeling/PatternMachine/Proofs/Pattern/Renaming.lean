import Mathlib.Logic.Function.Basic
import PatternMachine.Code.Layout
import PatternMachine.Proofs.Pattern.Composition

/-!
# Other characters

A renaming gives every character another one, no two the same, and leaves those alone that mean something in a regular
expression (`IsRenaming`).  The text of a regular expression with its characters renamed is read as the same pattern
with its characters renamed, and whatever is wrong with it is wrong at the same position (`Pattern.parse_rename`): this
holds of one token on any level (`Scanner.feed_rename`), so of one character in either state of the scanner
(`Scanner.step_rename`), and of a whole text.
-/

namespace PatternMachine

/-! ### Renamings -/

/-- The characters that mean something in a regular expression. -/
def operators : List Char :=
  "\\()|+*?".toList ++ ".^$".toList

private theorem mem_operators_iff {c : Char} : c ∈ operators ↔ isEscapable c = true ∨ ".^$".toList.contains c = true :=
  List.mem_append.trans (or_congr List.contains_iff_mem.symm List.contains_iff_mem.symm)

/-- No two characters get the same name, and the operators keep theirs. -/
structure IsRenaming (h : Char → Char) : Prop where
  injective : Function.Injective h
  fixes : ∀ c ∈ operators, h c = c

namespace IsRenaming

variable {h : Char → Char} {c x : Char}

private theorem apply_eq_iff (hr : IsRenaming h) (hx : x ∈ operators) : h c = x ↔ c = x := by
  constructor
  · intro hc
    apply hr.injective
    rw [hc, hr.fixes x hx]
  · rintro rfl
    exact hr.fixes c hx

private theorem apply_mem_iff (hr : IsRenaming h) : h c ∈ operators ↔ c ∈ operators := by
  constructor
  · intro hc
    rwa [(hr.apply_eq_iff hc).1 rfl]
  · intro hc
    rwa [hr.fixes c hc]

private theorem isEscapable_apply (hr : IsRenaming h) (c : Char) : isEscapable (h c) = isEscapable c := by
  rw [Bool.eq_iff_iff]
  constructor
  · intro hc
    rwa [(hr.apply_eq_iff (mem_operators_iff.2 (.inl hc))).1 rfl]
  · intro hc
    rwa [hr.fixes c (mem_operators_iff.2 (.inl hc))]

end IsRenaming

/-! ### Patterns and tokens -/

section Patterns

variable (h : Char → Char)

namespace Pattern

mutual

/-- The pattern with its characters renamed. -/
def rename : Pattern → Pattern
  | char text => char (text.map h)
  | any => any
  | lineStart => lineStart
  | lineEnd => lineEnd
  | plus body => plus body.rename
  | star body => star body.rename
  | opt body => opt body.rename
  | alt first second => alt first.rename second.rename
  | seq items => seq (renameAll items)
  | hole => hole

/-- The patterns with their characters renamed. -/
def renameAll : List Pattern → List Pattern
  | [] => []
  | p :: ps => p.rename :: renameAll ps

end

private theorem renameAll_eq_map (ps : List Pattern) : renameAll h ps = ps.map (rename h) := by
  induction ps with
  | nil => rfl
  | cons p ps ih => rw [renameAll, ih, List.map_cons]

@[simp] theorem rename_seq (ps : List Pattern) : (seq ps).rename h = seq (ps.map (rename h)) := by
  rw [rename, renameAll_eq_map]

@[simp] theorem rename_apply (q : Quantifier) (p : Pattern) : (q.apply p).rename h = q.apply (p.rename h) := by
  cases q <;> rfl

/-- The branches are folded in the same order. -/
private theorem alternation?_rename (ps : List Pattern) :
    alternation? (ps.map (rename h)) = (alternation? ps).map (rename h) := by
  have hfold (last : Pattern) (before : List Pattern) :
      (before.map (rename h)).foldl (fun folded branch => alt branch folded) (last.rename h) =
        (before.foldl (fun folded branch => alt branch folded) last).rename h := by
    induction before generalizing last with
    | nil => rfl
    | cons p before ih => exact ih (alt p last)
  rw [alternation?, alternation?, ← List.map_reverse]
  cases ps.reverse with
  | nil => rfl
  | cons last before => exact congrArg some (hfold last before)

mutual

@[simp] theorem width_rename : ∀ p : Pattern, (p.rename h).width = p.width
  | char _ | any | lineStart | lineEnd | hole => rfl
  | plus body | star body | opt body => by simp only [rename, width, width_rename body]
  | alt first second => by simp only [rename, width, width_rename first, width_rename second]
  | seq items => widthAll_rename items

private theorem widthAll_rename : ∀ ps : List Pattern, widthAll (renameAll h ps) = widthAll ps
  | [] => rfl
  | p :: ps => by simp only [renameAll, widthAll, width_rename p, widthAll_rename ps]

end

end Pattern

/-- The token with its character renamed, if it is an ordinary one. -/
def Token.rename : Token → Token
  | atom p => atom (p.rename h)
  | t => t

private theorem Token.rename_literal (c : Char) : (literal c).rename h = literal (h c) := by
  have htext : (String.singleton c).map h = String.singleton (h c) := by
    rw [← String.toList_inj, String.toList_map, String.toList_singleton, String.toList_singleton, List.map_singleton]
  rw [literal, literal, rename, Pattern.rename, htext]

end Patterns

variable {h : Char → Char}

/-- A character is an operator after the renaming exactly if it is the same operator before it. -/
private theorem Token.ofChar_rename (hr : IsRenaming h) (c : Char) : ofChar (h c) = (ofChar c).rename h := by
  by_cases hc : c ∈ operators
  · have hliteral : literal c = (literal c).rename h := by
      rw [rename_literal, hr.fixes c hc]
    rw [hr.fixes c hc]
    unfold ofChar
    split
    case h_10 => exact hliteral
    all_goals rfl
  · have hplain (x : Char) (hx : x ∉ operators) : ofChar x = literal x := by
      rw [mem_operators_iff, not_or, Bool.not_eq_true, Bool.not_eq_true] at hx
      exact ofChar_eq_literal hx.1 hx.2
    rw [hplain c hc, hplain (h c) (mt hr.apply_mem_iff.1 hc), rename_literal]

/-! ### The scanner -/

section Scanner

variable (h)

def Level.rename (level : Level) : Level where
  items := level.items.map (Pattern.rename h)
  branches := level.branches.map (Pattern.rename h)

/-- The scanner of a text with its characters renamed. -/
def Scanner.rename (s : Scanner) : Scanner :=
  { s with level := s.level.rename h, outer := s.outer.map (Level.rename h) }

/-- The error for a text with its characters renamed: it is the same but for the character that it shows. -/
def ParseError.rename : ParseError → ParseError
  | invalidEscape pos c? => invalidEscape pos (c?.map h)
  | e => e

private theorem Level.endBranch_rename (level : Level) : (level.rename h).endBranch = level.endBranch.rename h := by
  simp [Level.rename, Level.endBranch]

private theorem Level.pattern?_rename (level : Level) :
    (level.rename h).pattern? = level.pattern?.map (Pattern.rename h) := by
  have hlevel : (if (level.rename h).items.isEmpty then level.rename h else (level.rename h).endBranch) =
      (if level.items.isEmpty then level else level.endBranch).rename h := by
    rw [Level.endBranch_rename, show (level.rename h).items.isEmpty = level.items.isEmpty from List.isEmpty_map]
    split <;> rfl
  rw [Level.pattern?, hlevel, Level.pattern?, ← Pattern.alternation?_rename, Level.rename, List.map_reverse]

namespace Scanner

theorem feed_rename (s : Scanner) (t : Token) : (s.rename h).feed (t.rename h) = (s.feed t).map (rename h) := by
  cases t with
  | atom p | left => rfl
  | quantifier q =>
    obtain ⟨pos, escaped, ⟨items, branches⟩, outer⟩ := s
    cases items with
    | nil => rfl
    | cons p ps => simp [Token.rename, feed, rename, Level.rename, Except.map]
  | right =>
    obtain ⟨pos, escaped, level, outer⟩ := s
    cases outer with
    | nil => rfl
    | cons around outer =>
      simp only [Token.rename, feed, rename, Level.pattern?_rename, List.map_cons, Except.map]
      cases level.pattern? <;> rfl
  | bar =>
    obtain ⟨pos, escaped, ⟨items, branches⟩, outer⟩ := s
    cases items with
    | nil => rfl
    | cons p ps => simp [Token.rename, feed, rename, Level.rename, Level.endBranch, Except.map]

private theorem finish_rename (s : Scanner) : (s.rename h).finish = s.finish.map (Pattern.rename h) := by
  obtain ⟨pos, escaped, level, outer⟩ := s
  cases escaped with
  | true => rfl
  | false =>
    cases outer with
    | cons _ _ => rfl
    | nil =>
      simp only [finish, rename, Level.pattern?_rename, List.map_nil]
      cases level.pattern? <;> rfl

end Scanner

end Scanner

/-! ### Texts -/

namespace Scanner

/-- A token that goes wrong shows no character. -/
private theorem rename_of_feed_error {s : Scanner} {t : Token} {e : ParseError} (he : s.feed t = .error e) :
    e.rename h = e := by
  rcases feed_eq_error he with rfl | rfl
  · rfl
  · rfl

/-- What is wrong at the end of a text shows no character either. -/
private theorem rename_of_finish_error {s : Scanner} {e : ParseError} (he : s.finish = .error e) : e.rename h = e := by
  unfold finish at he
  split at he
  · cases he
    rfl
  · split at he
    · cases he
      rfl
    · split at he <;> cases he
      rfl

/-- Either state of the scanner does the same with a renamed character. -/
theorem step_rename (hr : IsRenaming h) (s : Scanner) (c : Char) :
    (s.rename h).step (h c) = ((s.step c).map (rename h)).mapError (ParseError.rename h) := by
  have hfeed (s : Scanner) (t : Token) (pos : Nat) :
      ((s.rename h).feed (t.rename h) >>= fun r => .ok (r.moveTo pos)) =
        ((s.feed t >>= fun r => .ok (r.moveTo pos)).map (rename h)).mapError (ParseError.rename h) := by
    rw [feed_rename]
    cases hs : s.feed t with
    | ok r => rfl
    | error e => exact congrArg Except.error (rename_of_feed_error hs).symm
  obtain ⟨pos, escaped, level, outer⟩ := s
  cases escaped with
  | true =>
    by_cases hc : isEscapable c
    · have hc' : isEscapable (h c) := by rwa [hr.isEscapable_apply]
      have hliteral := hfeed ⟨pos, false, level, outer⟩ (.literal c) (pos + 1)
      rw [Token.rename_literal] at hliteral
      simp only [step, rename, hc, hc', ↓reduceIte]
      exact hliteral
    · have hc' : ¬isEscapable (h c) := by rwa [hr.isEscapable_apply]
      simp only [step, rename, hc, hc', ↓reduceIte]
      rfl
  | false =>
    have hiff : h c = '\\' ↔ c = '\\' := hr.apply_eq_iff (by decide)
    by_cases hc : c = '\\'
    · have hc' : h c = '\\' := hiff.2 hc
      rw [hc', hc]
      rfl
    · have hplain := hfeed ⟨pos, false, level, outer⟩ (.ofChar c) (pos + 1)
      rw [← Token.ofChar_rename hr] at hplain
      simp only [step, rename, mt hiff.1 hc, hc, Bool.false_eq_true, ↓reduceIte]
      exact hplain

private theorem scan_rename (hr : IsRenaming h) (s : Scanner) (text : List Char) :
    (text.map h).foldlM step (s.rename h) =
      ((text.foldlM step s).map (rename h)).mapError (ParseError.rename h) :=
  scan_map (step_rename hr) text s

end Scanner

/-- A renamed text is read as the renamed pattern, or goes wrong in the same way at the same position. -/
theorem Pattern.parse_rename (hr : IsRenaming h) (regex : String) :
    parse (regex.map h) = ((parse regex).map (rename h)).mapError (ParseError.rename h) := by
  have hscan := Scanner.scan_rename hr {} regex.toList
  rw [parse, parse, String.toList_map]
  refine (congrArg (· >>= Scanner.finish) hscan).trans ?_
  cases regex.toList.foldlM Scanner.step {} with
  | error e => rfl
  | ok s =>
    refine (Scanner.finish_rename h s).trans ?_
    change _ = (s.finish.map (rename h)).mapError (ParseError.rename h)
    cases hs : s.finish with
    | ok p => rfl
    | error e => exact congrArg Except.error (Scanner.rename_of_finish_error hs).symm

/-! ### Code -/

/-- The instruction with its character renamed, if it reads one. -/
def Instr.rename (h : Char → Char) : Instr → Instr
  | char text => char (text.map h)
  | i => i

mutual

/-- The code of a renamed pattern has the same destinations. -/
theorem Pattern.code_rename : ∀ (p : Pattern) (base : Nat), (p.rename h).code base = (p.code base).map (Instr.rename h)
  | char _, _ | any, _ | lineStart, _ | lineEnd, _ | hole, _ => rfl
  | plus body, base | star body, base | opt body, base => by
    simp [rename, code, Instr.rename, code_rename body]
  | alt first second, base => by
    simp [rename, code, Instr.rename, code_rename first, code_rename second]
  | seq items, base => codeAll_rename items base

private theorem Pattern.codeAll_rename : ∀ (ps : List Pattern) (base : Nat),
    codeAll base (renameAll h ps) = (codeAll base ps).map (Instr.rename h)
  | [], _ => rfl
  | p :: ps, base => by
    simp [renameAll, codeAll, code_rename p, codeAll_rename ps]

end

end PatternMachine
