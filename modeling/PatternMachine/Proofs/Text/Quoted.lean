import Mathlib.Algebra.Group.Nat.Defs
import PatternMachine.Text.Quoted

/-!
# Reading quoted text

What is written for a character between quote marks tells which character it is and where it ends (`readChar`), whatever
stands behind it.  So a quoted text tells the text (`quoted_inj`), and it is a single line (`newline_not_mem_quoted`).
-/

namespace PatternMachine.Text

/-! ### Hexadecimal digits -/

def hexDigitValue (c : Char) : Nat :=
  "0123456789abcdef".toList.idxOf c

/-- The number that hexadecimal digits stand for, the most significant one first. -/
def hexValue (digits : List Char) : Nat :=
  digits.foldl (fun n c => 16 * n + hexDigitValue c) 0

private theorem hexDigitValue_digitChar : ∀ d < 16, hexDigitValue (Nat.digitChar d) = d := by
  decide

private theorem digitChar_ne_newline : ∀ d < 16, Nat.digitChar d ≠ '\n' := by
  decide

private theorem length_hexDigits (width n : Nat) : (hexDigits width n).length = width := by
  induction width generalizing n with
  | zero => rfl
  | succ width ih => rw [hexDigits, List.length_append, ih, List.length_singleton]

private theorem hexValue_hexDigits (width n : Nat) : hexValue (hexDigits width n) = n % 16 ^ width := by
  induction width generalizing n with
  | zero => rw [Nat.pow_zero, Nat.mod_one, hexDigits, hexValue, List.foldl_nil]
  | succ width ih =>
    have hlast : hexDigitValue (Nat.digitChar (n % 16)) = n % 16 :=
      hexDigitValue_digitChar _ (Nat.mod_lt n (by decide))
    have hfront : (hexDigits width (n / 16)).foldl (fun n c => 16 * n + hexDigitValue c) 0 = n / 16 % 16 ^ width :=
      ih (n / 16)
    rw [hexDigits, hexValue, List.foldl_append, List.foldl_cons, List.foldl_nil, hfront, hlast, Nat.pow_succ,
      Nat.mul_comm (16 ^ width) 16, Nat.mod_mul]
    omega

private theorem newline_not_mem_hexDigits (width n : Nat) : '\n' ∉ hexDigits width n := by
  induction width generalizing n with
  | zero => exact List.not_mem_nil
  | succ width ih =>
    have hlast := digitChar_ne_newline (n % 16) (Nat.mod_lt n (by decide))
    rw [hexDigits, List.mem_append, List.mem_singleton]
    rintro (h | h)
    · exact ih _ h
    · exact hlast h.symm

/-! ### Characters -/

/-- The ways in which a character is written between quote marks `mark`. -/
inductive Written (mark : Char) : Char → List Char → Prop where
  | escaped {c : Char} : c = mark ∨ c = '\\' → Written mark c ['\\', c]
  | tab : Written mark '\t' ['\\', 't']
  | newline : Written mark '\n' ['\\', 'n']
  | carriageReturn : Written mark '\r' ['\\', 'r']
  | plain {c : Char} : c ≠ '\\' → c ≠ '\n' → Written mark c [c]
  | byte {c : Char} : c.toNat < 16 ^ 2 → Written mark c ('\\' :: 'x' :: hexDigits 2 c.toNat)
  | short {c : Char} : c.toNat < 16 ^ 4 → Written mark c ('\\' :: 'u' :: hexDigits 4 c.toNat)
  | long {c : Char} : c.toNat < 16 ^ 8 → Written mark c ('\\' :: 'U' :: hexDigits 8 c.toNat)

private theorem toNat_lt (c : Char) : c.toNat < 16 ^ 8 := by
  have hvalid := c.valid
  simp only [UInt32.isValidChar, Nat.isValidChar] at hvalid
  rw [Char.toNat]
  omega

private theorem written_escapeCode (mark c : Char) : Written mark c (escapeCode c.toNat) := by
  unfold escapeCode
  by_cases hbyte : c.toNat < 0x100
  · rw [if_pos hbyte]
    exact .byte hbyte
  · rw [if_neg hbyte]
    by_cases hshort : c.toNat < 0x10000
    · rw [if_pos hshort]
      exact .short hshort
    · rw [if_neg hshort]
      exact .long (toNat_lt c)

private theorem written_escapeChar (mark c : Char) : Written mark c (escapeChar mark c) := by
  unfold escapeChar
  by_cases hescaped : c = mark ∨ c = '\\'
  · rw [if_pos hescaped]
    exact .escaped hescaped
  rw [if_neg hescaped]
  by_cases htab : c = '\t'
  · rw [if_pos htab, htab]
    exact .tab
  rw [if_neg htab]
  by_cases hnewline : c = '\n'
  · rw [if_pos hnewline, hnewline]
    exact .newline
  rw [if_neg hnewline]
  by_cases hreturn : c = '\r'
  · rw [if_pos hreturn, hreturn]
    exact .carriageReturn
  rw [if_neg hreturn]
  by_cases hprintable : isPrintable c
  · rw [if_pos hprintable]
    exact .plain (fun h => hescaped (.inr h)) hnewline
  · rw [if_neg hprintable]
    exact written_escapeCode mark c

/-! ### Reading -/

/-- The character whose code point the first `width` characters are, and the rest. -/
def readCode (width : Nat) (text : List Char) : Char × List Char :=
  (Char.ofNat (hexValue (text.take width)), text.drop width)

/-- The character that a backslash and the character behind it stand for, and the rest; some take more of the rest. -/
def readEscape (c : Char) (rest : List Char) : Char × List Char :=
  if c = 't' then ('\t', rest)
  else if c = 'n' then ('\n', rest)
  else if c = 'r' then ('\r', rest)
  else if c = 'x' then readCode 2 rest
  else if c = 'u' then readCode 4 rest
  else if c = 'U' then readCode 8 rest
  else (c, rest)

/-- The first character of what is written between quote marks, and the rest. -/
def readChar : List Char → Option (Char × List Char)
  | [] => none
  | ['\\'] => none
  | '\\' :: c :: rest => some (readEscape c rest)
  | c :: rest => some (c, rest)

private theorem readCode_hexDigits {width : Nat} {c : Char} (h : c.toNat < 16 ^ width) (rest : List Char) :
    readCode width (hexDigits width c.toNat ++ rest) = (c, rest) := by
  have htake : (hexDigits width c.toNat ++ rest).take width = hexDigits width c.toNat :=
    List.take_left' (length_hexDigits width c.toNat)
  have hdrop : (hexDigits width c.toNat ++ rest).drop width = rest :=
    List.drop_left' (length_hexDigits width c.toNat)
  rw [readCode, htake, hdrop, hexValue_hexDigits, Nat.mod_eq_of_lt h, Char.ofNat_toNat]

/-- One of the two quote marks. -/
def IsMark (mark : Char) : Prop :=
  mark = '\x27' ∨ mark = '\x22'

private theorem isMark_quoteMark (text : List Char) : IsMark (quoteMark text) := by
  unfold quoteMark
  split
  · exact .inr rfl
  · exact .inl rfl

variable {mark : Char} {text text' : List Char}

/-- What is written for a character is read as this character. -/
private theorem readChar_escapeChar (hmark : IsMark mark) (c : Char) (rest : List Char) :
    readChar (escapeChar mark c ++ rest) = some (c, rest) := by
  have h := written_escapeChar mark c
  generalize escapeChar mark c = w at h
  cases h with
  | escaped h =>
    rcases hmark with rfl | rfl <;> rcases h with rfl | rfl <;> rfl
  | tab | newline | carriageReturn => rfl
  | plain h _ => simp [readChar, h]
  | byte h | short h | long h => exact congrArg some (readCode_hexDigits h rest)

/-- What is written for the characters of a text tells the text. -/
private theorem flatMap_escapeChar_inj (hmark : IsMark mark)
    (h : text.flatMap (escapeChar mark) = text'.flatMap (escapeChar mark)) : text = text' := by
  induction text generalizing text' with
  | nil =>
    cases text' with
    | nil => rfl
    | cons c text' =>
      have hread := readChar_escapeChar hmark c (text'.flatMap (escapeChar mark))
      rw [← List.flatMap_cons, ← h] at hread
      cases hread
  | cons c text ih =>
    have hread := readChar_escapeChar hmark c (text.flatMap (escapeChar mark))
    rw [← List.flatMap_cons, h] at hread
    cases text' with
    | nil => cases hread
    | cons c' text' =>
      rw [List.flatMap_cons, readChar_escapeChar hmark, Option.some.injEq, Prod.mk.injEq] at hread
      obtain ⟨rfl, hrest⟩ := hread
      rw [ih hrest.symm]

theorem quoted_inj {s t : String} (h : quoted s = quoted t) : s = t := by
  have hlist := congrArg String.toList h
  simp only [quoted, String.toList_ofList, List.cons_append, List.cons.injEq] at hlist
  obtain ⟨hmark, hrest⟩ := hlist
  rw [← hmark] at hrest
  have hbody := List.append_cancel_right hrest
  have htext := flatMap_escapeChar_inj (isMark_quoteMark s.toList) hbody
  exact String.toList_inj.1 htext

/-! ### Newlines -/

private theorem newline_not_mem_escapeChar (hmark : IsMark mark) (c : Char) : '\n' ∉ escapeChar mark c := by
  have hdigits := newline_not_mem_hexDigits
  have h := written_escapeChar mark c
  generalize escapeChar mark c = w at h
  cases h with
  | escaped h =>
    rcases hmark with rfl | rfl <;> rcases h with rfl | rfl <;> decide
  | tab | newline | carriageReturn => decide
  | plain _ h => simpa [eq_comm] using h
  | byte _ | short _ | long _ => simp [hdigits]

theorem newline_not_mem_quoted (s : String) : '\n' ∉ (quoted s).toList := by
  have hmark := isMark_quoteMark s.toList
  have hne : '\n' ≠ quoteMark s.toList := by
    rcases hmark with h | h <;> rw [h] <;> decide
  have hbody : '\n' ∉ s.toList.flatMap (escapeChar (quoteMark s.toList)) := by
    rw [List.mem_flatMap]
    rintro ⟨c, -, h⟩
    exact newline_not_mem_escapeChar hmark c h
  simp [quoted, hne, hbody]

end PatternMachine.Text
