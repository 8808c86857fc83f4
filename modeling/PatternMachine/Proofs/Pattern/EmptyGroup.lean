import PatternMachine.Proofs.Pattern.Reading

/-!
# Empty groups

Balanced parentheses leave no trace wherever they stand in a regular expression, but for the positions of the characters
behind them (`Pattern.parse_insert_balanced`).  They are the text of a concatenation without items (`Balanced.items`),
so the scanner is behind them in the state that it was in before (`Scanner.scan_balanced`).  What follows is then read
as if it stood further on, and its errors are those that it has without the parentheses, further on
(`Scanner.scan_shift`).
-/

namespace PatternMachine

open Token (SpellsAll)

/-- The error as it is if the character at which it shows stands `n` positions further on. -/
def ParseError.shift (n : Nat) : ParseError → ParseError
  | invalidEscape pos c? => invalidEscape (pos + n) c?
  | unopenedGroup pos => unopenedGroup (pos + n)
  | nothingBefore pos => nothingBefore (pos + n)
  | unclosedGroup => unclosedGroup
  | empty => empty

/-! ### Further on in the text -/

namespace Scanner

/-- The scanner `n` positions further on. -/
def shift (n : Nat) (s : Scanner) : Scanner :=
  s.moveTo (s.pos + n)

private theorem feed_shift (s : Scanner) (t : Token) (n : Nat) :
    (s.shift n).feed t = ((s.feed t).map (shift n)).mapError (ParseError.shift n) := by
  obtain ⟨pos, escaped, ⟨items, branches⟩, outer⟩ := s
  cases t with
  | atom p | left => rfl
  | quantifier q | bar => cases items <;> rfl
  | right => cases outer <;> rfl

private theorem step_shift (s : Scanner) (c : Char) (n : Nat) :
    (s.shift n).step c = ((s.step c).map (shift n)).mapError (ParseError.shift n) := by
  have hfeed (s : Scanner) (t : Token) (pos : Nat) :
      ((s.shift n).feed t >>= fun r => .ok (r.moveTo (pos + n + 1))) =
        ((s.feed t >>= fun r => .ok (r.moveTo (pos + 1))).map (shift n)).mapError (ParseError.shift n) := by
    rw [feed_shift, Nat.add_right_comm]
    cases s.feed t <;> rfl
  obtain ⟨pos, escaped, level, outer⟩ := s
  -- the token that the character ends depends on the backslash in front of it and on no position
  cases escaped with
  | true =>
    by_cases hc : isEscapable c
    · simp only [step, shift, moveTo, hc, ↓reduceIte]
      exact hfeed ⟨pos, false, level, outer⟩ (.literal c) pos
    · simp only [step, shift, moveTo, hc, ↓reduceIte]
      rfl
  | false =>
    by_cases hc : c = '\\'
    · subst hc
      have hwaiting : Scanner.mk (pos + n + 1) true level outer = ⟨pos + 1 + n, true, level, outer⟩ := by
        rw [Nat.add_right_comm]
      exact congrArg Except.ok hwaiting
    · simp only [step, shift, moveTo, hc, Bool.false_eq_true, ↓reduceIte]
      exact hfeed ⟨pos, false, level, outer⟩ (.ofChar c) pos

/-- A text is read in the same way wherever it stands, but for the positions of its errors. -/
theorem scan_shift (text : List Char) (s : Scanner) (n : Nat) :
    text.foldlM step (s.shift n) = ((text.foldlM step s).map (shift n)).mapError (ParseError.shift n) := by
  have hscan := scan_map (fun s c => step_shift s c n) text s
  rwa [List.map_id'] at hscan

private theorem finish_shift (s : Scanner) (n : Nat) : (s.shift n).finish = s.finish.mapError (ParseError.shift n) := by
  obtain ⟨pos, escaped, level, outer⟩ := s
  cases escaped with
  | true => rfl
  | false =>
    cases outer with
    | cons _ _ => rfl
    | nil =>
      simp only [finish, shift, moveTo]
      cases level.pattern? <;> rfl

end Scanner

/-! ### Balanced parentheses -/

/-- Groups one behind the other, in which there is nothing but such groups. -/
inductive Balanced : List Char → Prop where
  | nil : Balanced []
  | group {front inner : List Char} : Balanced front → Balanced inner → Balanced (front ++ '(' :: (inner ++ [')']))

/-- Balanced parentheses are a concatenation without items. -/
theorem Balanced.items {g : List Char} (h : Balanced g) : ∃ w, SpellsAll g w ∧ Items w [] := by
  induction h with
  | nil => exact ⟨[], .nil, .nil⟩
  | @group front inner _ _ ihfront ihinner =>
    obtain ⟨w, hw, hfront⟩ := ihfront
    obtain ⟨v, hv, hinner⟩ := ihinner
    have hright : SpellsAll [')'] [.right] := .cons (.plain (by decide)) .nil
    have hgroup : SpellsAll ('(' :: (inner ++ [')'])) (.left :: (v ++ [.right])) :=
      .cons (.plain (by decide)) (hv.append hright)
    exact ⟨_, hw.append hgroup, .emptyGroup hfront (.empty hinner)⟩

/-- Whatever levels are open, the scanner comes out of balanced parentheses as it has gone into them. -/
theorem Scanner.scan_balanced {s : Scanner} {g : List Char} (hg : Balanced g) (hs : s.escaped = false) :
    g.foldlM step s = .ok (s.shift g.length) := by
  obtain ⟨w, hw, hitems⟩ := hg.items
  exact scan_of_feedAll hw hs (feedAll_items hitems s)

namespace Pattern

/-- Balanced parentheses can stand everywhere but behind a backslash that waits for an operator: with them the same
pattern is read, or there is the same error, at a position that is greater by their number. -/
theorem parse_insert_balanced (u g v : String) (s : Scanner) (hg : Balanced g.toList)
    (hu : u.toList.foldlM Scanner.step {} = .ok s) (hs : s.escaped = false) :
    parse (u ++ g ++ v) = (parse (u ++ v)).mapError (ParseError.shift g.length) := by
  have hbehind : ∀ w : List Char, (u.toList ++ w).foldlM Scanner.step {} = w.foldlM Scanner.step s := by
    intro w
    rw [List.foldlM_append, hu]
    rfl
  have hgroups : (g.toList ++ v.toList).foldlM Scanner.step s = v.toList.foldlM Scanner.step (s.shift g.length) := by
    rw [List.foldlM_append, Scanner.scan_balanced hg hs, String.length_toList]
    rfl
  rw [parse, parse, String.toList_append, String.toList_append, String.toList_append, List.append_assoc, hbehind,
    hbehind, hgroups, Scanner.scan_shift]
  cases v.toList.foldlM Scanner.step s with
  | error e => rfl
  | ok r => exact Scanner.finish_shift r g.length

/-- In a group: between an item and its quantifier, and in front of an error. -/
theorem parse_insert_balanced_nested :
    parse "(a|b(()())*)" = .ok (.seq [.alt (.seq [.char "a"]) (.seq [.star (.char "b")])]) ∧
    parse "(a|b(()())\\c)" = .error (.invalidEscape 11 (some 'c')) := by
  have hbalanced : Balanced "(()())".toList := .group .nil (.group (.group .nil .nil) .nil)
  have hscan : "(a|b".toList.foldlM Scanner.step {} = .ok {
    pos := 4
    level := { items := [.char "b"], branches := [.seq [.char "a"]] }
    outer := [{}] } := rfl
  have hinsert (v : String) : parse ("(a|b" ++ "(()())" ++ v) = (parse ("(a|b" ++ v)).mapError (ParseError.shift 6) :=
    parse_insert_balanced "(a|b" "(()())" v _ hbalanced hscan rfl
  exact ⟨hinsert "*)", hinsert "\\c)"⟩

end Pattern

end PatternMachine
