import PatternMachine.Proofs.Code.Leftmost
import PatternMachine.Proofs.Pattern.Alternation
import PatternMachine.Proofs.Pattern.Anywhere
import PatternMachine.Proofs.Regex.Outcome

/-!
# Regular expressions without a circumflex

If no circumflex stands for the start of the line, no anchor can be misplaced, so a match with enough room answers
whether the pattern matches (`Regex.matchesStart_of_parse`).  Such answers can be compared as the patterns are.  A scan
of a line finds something exactly if the regular expression matches behind any number of characters
(`Regex.scan_iff_anywhere`), and a bar between two regular expressions is a disjunction (`Regex.matchesStart_bar`).
-/

namespace PatternMachine

namespace Regex

open Pattern (parse anywhere alternation?)

variable {regex rest text line : String} {limit capacity : Int} {p q : Pattern} {program : Program}
  {scanner : Scanner}

/-! ### Answers -/

private theorem Unanchored.address_eq_zero (hr : Unanchored regex) (h : compile regex limit = .ok program) (a : Nat)
    (ha : program[a]? = some .lineStart) : a = 0 := by
  obtain ⟨p, hp, hcompile⟩ := compile_eq_ok_iff.1 h
  obtain ⟨w, hw, -⟩ := Pattern.parse_eq_ok_iff.1 hp
  have hmem := Array.mem_of_getElem? ha
  rw [Pattern.eq_of_compile (Pattern.isComplete_of_parse hp) hcompile] at hmem
  have hcode : Instr.lineStart ∈ p.code 0 := by
    simpa using hmem
  exact absurd (Pattern.mem_of_mem_code hp hw hcode) (hr w hw)

private theorem exists_compile (hp : parse regex = .ok p) (hsize : (p.width + 1 : Int) ≤ limit) :
    ∃ program, compile regex limit = .ok program ∧ p.compile limit = .ok program ∧ program.size = p.width + 1 := by
  have hc := Pattern.isComplete_of_parse hp
  have h := Pattern.compile_of_isComplete hc limit
  rw [if_pos hsize] at h
  exact ⟨_, compile_eq_ok_iff.2 ⟨p, hp, h⟩, h, Pattern.size_of_compile hc h⟩

/-- With enough room the answer is whether the pattern matches. -/
theorem matchesStart_of_parse (hp : parse regex = .ok p) (hr : Unanchored regex) (hsize : (p.width + 1 : Int) ≤ limit)
    (text : String) (htext : text.length ≤ limit) :
    ∃ b, matchesStart regex text { limit } = .ok b ∧ (b = true ↔ p.Matches text.toList.toArray 0 0) := by
  obtain ⟨program, h, hcompile, hprogram⟩ := exists_compile hp hsize
  rw [← String.length_toList] at htext
  obtain ⟨b, hb, hiff⟩ := Pattern.accepts_drop (Pattern.isComplete_of_parse hp) hcompile
    (hr.address_eq_zero h) (by omega) htext (Nat.zero_le _) 0
  have haccepts : (machine program text).accepts { limit } = .ok b := hb
  refine ⟨b, ?_, hiff⟩
  rw [matchesStart_of_compile h, haccepts]
  rfl

/-- An answer of no for the empty text, from whatever limit. -/
private theorem not_matches_nil (hp : parse regex = .ok p) (hr : Unanchored regex)
    (h : matchesStart regex "" { limit := capacity } = .ok false) : ¬p.Matches #[] 0 0 := by
  have hsize : (p.width + 1 : Int) ≤ capacity := by
    by_contra hfull
    rw [matchesStart_of_error (by rw [compile_of_parse hp, if_neg hfull])] at h
    cases h
  obtain ⟨b, hb, hiff⟩ := matchesStart_of_parse hp hr hsize "" (by rw [String.length_empty]; omega)
  rw [h] at hb
  cases hb
  exact fun hm => nomatch hiff.2 hm

/-! ### Scans -/

/-- If the regular expression does not match the empty text, a scan of a line finds something exactly if the regular
expression matches the line behind any number of characters. -/
theorem scan_iff_anywhere (regex : String) (p : Pattern) (hp : parse regex = .ok p) (hr : Unanchored regex)
    (capacity : Int) (hnil : matchesStart regex "" { limit := capacity } = .ok false) (line : String) (limit : Int)
    (hsize : (p.width + 4 : Int) ≤ limit) (hline : line.length ≤ limit) :
    ∃ program around k? b, compile regex limit = .ok program ∧ program.size = p.width + 1 ∧
      compile (".*(" ++ regex ++ ")") limit = .ok around ∧ around.size = p.width + 4 ∧
      program.scan line { limit } = .ok k? ∧ matchesStart (".*(" ++ regex ++ ")") line { limit } = .ok b ∧
      (k?.isSome ↔ b = true) := by
  have hp' : parse (".*(" ++ regex ++ ")") = .ok p.anywhere := Pattern.parse_anywhere hp
  have hr' : Unanchored (".*(" ++ regex ++ ")") := unanchored_of_not_mem (by simp [hr.not_mem hp])
  have hwidth : p.anywhere.width = p.width + 3 := by
    simp [anywhere, Pattern.width, Pattern.widthAll, Nat.add_comm]
  have hfits : (p.width + 1 : Int) ≤ limit := by omega
  have hfits' : (p.anywhere.width + 1 : Int) ≤ limit := by omega
  obtain ⟨program, h, hcompile, hprogram⟩ := exists_compile hp hfits
  obtain ⟨around, h', -, haround⟩ := exists_compile hp' hfits'
  -- the scan tries the pattern in place, the longer program behind any number of characters
  obtain ⟨k?, hscan, hfinds⟩ := Program.scan_finds (Pattern.isComplete_of_parse hp) hcompile
    (hr.address_eq_zero h) (by omega) hline
  obtain ⟨b, hb, hiff⟩ := matchesStart_of_parse hp' hr' hfits' line hline
  refine ⟨program, around, k?, b, h, hprogram, h', by omega, hscan, hb, ?_⟩
  rw [hfinds.isSome_iff, hiff, (Pattern.floats_of_parse hp hr).matches_anywhere_iff (not_matches_nil hp hr hnil),
    String.length_toList]
  rfl

/-- The last letter is the first one that has the end of the line behind it. -/
theorem scan_lastLetter : matchesStart (".*(" ++ "b$" ++ ")") "abb" = .ok true ∧
    ∃ program k, compile "b$" = .ok program ∧ program.scan "abb" = .ok (some k) := by
  have hp : parse "b$" = .ok (.seq [.char "b", .lineEnd]) := by rfl
  have hr : Unanchored "b$" := unanchored_of_not_mem (by decide)
  have hnil : matchesStart "b$" "" { limit := 9 } = .ok false := by decide +kernel
  have hmatch : matchesStart (".*(" ++ "b$" ++ ")") "abb" = .ok true := by decide +kernel
  obtain ⟨program, _, k?, b, h, _, _, _, hscan, hb, hiff⟩ :=
    scan_iff_anywhere "b$" _ hp hr 9 hnil "abb" defaultLimit (by decide) (by decide +kernel)
  have hb' : b = true := by
    rw [show matchesStart (".*(" ++ "b$" ++ ")") "abb" { limit := defaultLimit } = .ok true from hmatch] at hb
    cases hb
    rfl
  obtain ⟨k, rfl⟩ := Option.isSome_iff_exists.1 (hiff.2 hb')
  exact ⟨hmatch, program, k, h, hscan⟩

/-! ### Bars -/

/-- If the first regular expression ends with an item, a bar between it and a second one is read as the alternation of
the branches of both, and matches a text exactly if one of the two does. -/
theorem matchesStart_bar (regex rest : String) (p q : Pattern) (hp : parse regex = .ok p) (hq : parse rest = .ok q)
    (hr : Unanchored regex) (hr' : Unanchored rest) (scanner : Scanner)
    (hscan : regex.toList.foldlM Scanner.step {} = .ok scanner) (hitems : scanner.level.items ≠ []) :
    ∃ a, parse (regex ++ "|" ++ rest) = .ok a ∧ alternation? (p.branches ++ q.branches) = some a ∧
      ∀ (text : String) (limit : Int), (p.width + q.width + 3 : Int) ≤ limit → text.length ≤ limit →
        ∃ program b b', compile (regex ++ "|" ++ rest) limit = .ok program ∧
          program.size = p.width + q.width + 3 ∧
          matchesStart regex text { limit } = .ok b ∧ matchesStart rest text { limit } = .ok b' ∧
          matchesStart (regex ++ "|" ++ rest) text { limit } = .ok (b || b') := by
  have ha : parse (regex ++ "|" ++ rest) = .ok (p.orElse q) := Pattern.parse_bar hp hq hscan hitems
  have hbranches : alternation? (p.branches ++ q.branches) = some (p.orElse q) := by
    rw [← Pattern.branches_orElse]
    exact Pattern.alternation?_branches _
  have hbar : Unanchored (regex ++ "|" ++ rest) :=
    unanchored_of_not_mem (by simp [hr.not_mem hp, hr'.not_mem hq])
  refine ⟨_, ha, hbranches, fun text limit hsize htext => ?_⟩
  have hwidth : (p.orElse q).width = p.width + q.width + 2 := Pattern.width_orElse p q
  have hfits : ((p.orElse q).width + 1 : Int) ≤ limit := by omega
  obtain ⟨program, h, -, hprogram⟩ := exists_compile ha hfits
  obtain ⟨b, hb, hiff⟩ := matchesStart_of_parse hp hr (by omega) text htext
  obtain ⟨b', hb', hiff'⟩ := matchesStart_of_parse hq hr' (by omega) text htext
  obtain ⟨c, hc, hiff''⟩ := matchesStart_of_parse ha hbar hfits text htext
  have hor : c = (b || b') := by
    rw [Bool.eq_iff_iff, Bool.or_eq_true, hiff, hiff', hiff'', Pattern.matches_orElse]
  exact ⟨program, b, b', h, by omega, hb, hb', hor ▸ hc⟩

/-- The last branch of three is the first one of the second regular expression. -/
theorem matchesStart_thirdBranch : matchesStart ("a|bc" ++ "|" ++ "b$") "b" = .ok true ∧
    matchesStart "a|bc" "b" = .ok false ∧ matchesStart "b$" "b" = .ok true := by
  let scanner : Scanner := { pos := 4, level := ⟨[.char "c", .char "b"], [.seq [.char "a"]]⟩ }
  have hp : parse "a|bc" = .ok (.alt (.seq [.char "a"]) (.seq [.char "b", .char "c"])) := by rfl
  have hq : parse "b$" = .ok (.seq [.char "b", .lineEnd]) := by rfl
  have hr : Unanchored "a|bc" := unanchored_of_not_mem (by decide)
  have hr' : Unanchored "b$" := unanchored_of_not_mem (by decide)
  have hscan : "a|bc".toList.foldlM Scanner.step {} = .ok scanner := by rfl
  have hfirst : matchesStart "a|bc" "b" = .ok false := by decide +kernel
  have hsecond : matchesStart "b$" "b" = .ok true := by decide +kernel
  obtain ⟨_, _, _, hmatch⟩ := matchesStart_bar "a|bc" "b$" _ _ hp hq hr hr' scanner hscan (List.cons_ne_nil _ _)
  obtain ⟨_, b, b', _, _, hb, hb', hboth⟩ := hmatch "b" defaultLimit (by decide) (by decide +kernel)
  rw [show matchesStart "a|bc" "b" { limit := defaultLimit } = .ok false from hfirst] at hb
  rw [show matchesStart "b$" "b" { limit := defaultLimit } = .ok true from hsecond] at hb'
  cases hb
  cases hb'
  exact ⟨hboth, hfirst, hsecond⟩

end Regex

end PatternMachine
