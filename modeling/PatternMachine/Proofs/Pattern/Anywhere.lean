import PatternMachine.Proofs.Pattern.Position

/-!
# Matches anywhere in a text

Behind any number of characters a pattern matches at the beginning of a text exactly if it matches somewhere, be it at
the end (`Pattern.matches_anywhere`).  At the end it matches exactly if it matches the empty text
(`Pattern.matches_nil_iff`), and in front of a group the dot and the star are read as such characters
(`Pattern.parse_anywhere`).
-/

namespace PatternMachine

open Token (SpellsAll)

namespace Pattern

variable {p : Pattern} {regex : String}

/-! ### Any number of characters -/

section Runs

variable {text : Array Char} {start : Int} {i j : Nat}

/-- The first item ends the match, or the others match behind it. -/
theorem matches_seq_cons (p : Pattern) (ps : List Pattern) : (seq (p :: ps)).Matches text start i ↔
    p.Accepts text start i ∨ ∃ j, p.Runs text start i j ∧ (seq ps).Matches text start j := by
  simp only [Matches, Accepts, AcceptsAll, Runs, RunsAll, and_or_left, exists_or, ← exists_and_left, or_assoc]
  rw [exists_comm]

private theorem matches_seq_singleton (p : Pattern) : (seq [p]).Matches text start i ↔ p.Matches text start i := by
  simp [Matches, Accepts, AcceptsAll, Runs, RunsAll]

private theorem rounds_any (hi : i ≤ text.size) : Rounds (Runs text start any) i j ↔ i ≤ j ∧ j ≤ text.size := by
  constructor
  · intro h
    induction h with
    | none => exact ⟨Nat.le_refl _, hi⟩
    | more hr _ ih =>
      obtain ⟨hlt, rfl⟩ := hr
      have := ih hlt
      omega
  · rintro ⟨hij, hj⟩
    -- on the number of characters, since a round adds one in front
    obtain ⟨n, rfl⟩ := Nat.exists_eq_add_of_le hij
    induction n generalizing i with
    | zero => exact .none _
    | succ n ih =>
      rw [Nat.add_comm n, ← Nat.add_assoc] at hj ⊢
      exact .more ⟨by omega, rfl⟩ (ih (by omega) (by omega) hj)

/-- The pattern behind any number of characters. -/
def anywhere (p : Pattern) : Pattern :=
  seq [star any, p]

theorem matches_anywhere (p : Pattern) :
    p.anywhere.Matches text start 0 ↔ ∃ k ≤ text.size, p.Matches text start k := by
  have hruns (j : Nat) : (star any).Runs text start 0 j ↔ j ≤ text.size := by
    have hrounds : Rounds (Runs text start any) 0 j ↔ 0 ≤ j ∧ j ≤ text.size := rounds_any (Nat.zero_le _)
    exact hrounds.trans (and_iff_right (Nat.zero_le j))
  have haccepts : ¬(star any).Accepts text start 0 := by
    simp [Accepts]
  simp only [anywhere, matches_seq_cons (star any), matches_seq_singleton, hruns, haccepts, false_or]

end Runs

theorem matches_nil_iff (p : Pattern) (text : List Char) (start : Int) :
    p.Matches #[] start 0 ↔ p.Matches text.toArray start text.length := by
  rw [← matches_drop p (Nat.le_refl _), List.drop_length]

/-- Where the text begins makes no difference, and the end of the text can be left out, as the pattern would match
nothing there. -/
theorem Floats.matches_anywhere_iff (hf : p.Floats) (hnil : ¬p.Matches #[] 0 0) (text : List Char) :
    p.anywhere.Matches text.toArray 0 0 ↔ ∃ k < text.length, p.Matches text.toArray k k := by
  rw [matches_anywhere, List.size_toArray]
  refine exists_congr fun k => ?_
  rw [hf.matches_iff text.toArray 0 k]
  refine and_congr_left fun hk => ⟨fun hle => ?_, Nat.le_of_lt⟩
  refine Nat.lt_of_le_of_ne hle ?_
  rintro rfl
  rw [matches_nil_iff p text, hf.matches_iff text.toArray 0 text.length] at hnil
  exact hnil hk

/-! ### The regular expression -/

theorem parse_anywhere (h : parse regex = .ok p) : parse (".*(" ++ regex ++ ")") = .ok p.anywhere := by
  obtain ⟨w, hw, hbody⟩ := parse_eq_ok_iff.1 h
  have hopen : SpellsAll ".*(".toList [.atom any, .quantifier .star, .left] := Token.spellsAll_iff.2 (by rfl)
  have hclose : SpellsAll ")".toList [.right] := Token.spellsAll_iff.2 (by rfl)
  have htext := (hopen.append (Token.spellsAll_iff.2 hw)).append hclose
  have hitems : Items ([.atom any, .quantifier .star] ++ .left :: (w ++ [.right])) [star any, p] :=
    .group (.quantified .star (@Items.atom [] [] any .nil)) hbody
  refine parse_eq_ok_iff.2 ⟨_, Token.spellsAll_iff.1 ?_, .single hitems (List.cons_ne_nil _ _)⟩
  simpa using htext

end Pattern

end PatternMachine
