import Mathlib.Logic.Equiv.Basic
import PatternMachine.Proofs.Pattern.Renaming
import PatternMachine.Proofs.Regex.Outcome

/-!
# Matches do not depend on the characters

Nothing but the operators of regular expressions is singled out among the characters.  If those of a regular expression
and of a text are renamed, the parser and the code generator do what they did before, and the machine makes the same
move at every point (`Machine.move_rename`), so the two runs stay in step, whatever their limits.  A match has the same
outcome, up to the character that an error shows (`Regex.matchesStart_rename`).
-/

namespace PatternMachine

variable {h : Char → Char}

/-! ### Runs -/

@[simp] theorem Instr.opcode_rename (i : Instr) : (i.rename h).opcode = i.opcode := by
  cases i <;> rfl

namespace Machine

/-- The machine with the characters of its program and of its text renamed. -/
def rename (h : Char → Char) (m : Machine) : Machine where
  program := m.program.map (Instr.rename h)
  text := m.text.map h
  start := m.start

/-- Two texts of which the second is a single character are the same after a renaming exactly if they were before. -/
private theorem map_eq_singleton_iff (hinj : Function.Injective h) (text : String) (c : Char) :
    text.map h = String.singleton (h c) ↔ text = String.singleton c := by
  rw [← String.toList_inj, ← String.toList_inj, String.toList_map, String.toList_singleton, String.toList_singleton,
    ← List.map_singleton, (List.map_injective_iff.2 hinj).eq_iff]

/-- The same move is made at every point. -/
theorem move_rename (hinj : Function.Injective h) (m : Machine) (p : Point) : (m.rename h).move p = m.move p := by
  unfold move
  by_cases hp : p.pc < 0
  · rw [if_pos hp, if_pos hp]
  · rw [if_neg hp, if_neg hp]
    simp only [rename, Array.getElem?_map, Array.size_map]
    cases m.program[p.pc.toNat]? with
    | none => rfl
    | some i =>
      cases i with
      | char text =>
        cases m.text[p.sp]? with
        | none => rfl
        | some c => simp [Instr.rename, map_eq_singleton_iff hinj]
      | _ => rfl

private theorem run_rename (hinj : Function.Injective h) (m : Machine) (limit : Int) (steps : Nat) (s : State) :
    (m.rename h).run limit steps s = m.run limit steps s := by
  induction steps generalizing s with
  | zero => rfl
  | succ steps ih =>
    have hstep : (m.rename h).step limit s = m.step limit s := by
      rw [step, step, move_rename hinj]
    rw [run, run, hstep]
    cases m.step limit s with
    | going s' => exact ih s'
    | ended answer => rfl

private theorem stepBound_rename (m : Machine) : (m.rename h).stepBound = m.stepBound := by
  have hsplits : (m.rename h).splits = m.splits := by
    simp [splits, rename, Array.countP_map, Function.comp_def]
  rw [stepBound, stepBound, hsplits, rename, Array.size_map, Array.size_map]

private theorem accepts_rename (hinj : Function.Injective h) (m : Machine) (config : Config) :
    (m.rename h).accepts config = m.accepts config := by
  simp only [accepts, run_rename hinj, stepBound_rename]

end Machine

/-! ### Regular expressions -/

namespace Regex

open Pattern (parse)

/-- The error for a regular expression with its characters renamed. -/
def Error.rename (h : Char → Char) : Error → Error
  | parse e => parse (e.rename h)
  | e => e

/-- A renamed regular expression is compiled to the renamed program. -/
private theorem compile_rename (hr : IsRenaming h) (regex : String) (limit : Int) :
    compile (regex.map h) limit =
      ((compile regex limit).map (Array.map (Instr.rename h))).mapError (Error.rename h) := by
  have hparse := Pattern.parse_rename hr regex
  cases hp : parse regex with
  | error e =>
    rw [hp] at hparse
    rw [compile_of_parse_error hp, compile_of_parse_error hparse]
    rfl
  | ok p =>
    rw [hp] at hparse
    rw [compile_of_parse hp, compile_of_parse hparse, Pattern.width_rename, Pattern.code_rename]
    split
    · simp [Except.map, Except.mapError, Instr.rename]
    · rfl

/-- If the characters of a regular expression and of a text are renamed, none to the name of another one and none that
is an operator, a match has the same outcome: the same answer, or the same error with the same data, but for the
character that an error shows, which is renamed. -/
theorem matchesStart_rename (h : Char → Char) (hinj : Function.Injective h) (hfixes : ∀ c ∈ operators, h c = c)
    (regex text : String) (config : Config) :
    matchesStart (regex.map h) (text.map h) config = (matchesStart regex text config).mapError (Error.rename h) := by
  have hcompile := compile_rename ⟨hinj, hfixes⟩ regex config.limit
  cases hprogram : compile regex config.limit with
  | error e =>
    rw [hprogram] at hcompile
    rw [matchesStart_of_error hprogram, matchesStart_of_error hcompile]
    rfl
  | ok program =>
    rw [hprogram] at hcompile
    have hmachine : machine (program.map (Instr.rename h)) (text.map h) = (machine program text).rename h := by
      simp [machine, Machine.rename, String.toList_map]
    rw [matchesStart_of_compile hprogram, matchesStart_of_compile hcompile, hmachine, Machine.accepts_rename hinj]
    cases (machine program text).accepts config <;> rfl

/-- Two letters change places, in the text and in the error. -/
theorem matchesStart_swapped :
    matchesStart "b*\\a" "ba" = .error (.parse (.invalidEscape 3 (some 'a'))) ∧
    matchesStart "a*\\b" "ab" = .error (.parse (.invalidEscape 3 (some 'b'))) := by
  have hbefore : matchesStart "b*\\a" "ba" = .error (.parse (.invalidEscape 3 (some 'a'))) := by decide +kernel
  have hregex : "b*\\a".map (Equiv.swap 'a' 'b') = "a*\\b" := by decide +kernel
  have htext : "ba".map (Equiv.swap 'a' 'b') = "ab" := by decide +kernel
  have hfixes : ∀ c ∈ operators, Equiv.swap 'a' 'b' c = c := by
    have ha : 'a' ∉ operators := by decide
    have hb : 'b' ∉ operators := by decide
    exact fun c hc => Equiv.swap_apply_of_ne_of_ne (ne_of_mem_of_not_mem hc ha) (ne_of_mem_of_not_mem hc hb)
  have hafter := matchesStart_rename (Equiv.swap 'a' 'b') (Equiv.injective _) hfixes "b*\\a" "ba" {}
  rw [hregex, htext, hbefore] at hafter
  exact ⟨hbefore, hafter⟩

end Regex

end PatternMachine
