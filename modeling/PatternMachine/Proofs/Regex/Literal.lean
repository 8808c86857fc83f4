import PatternMachine.Proofs.Code.Leftmost
import PatternMachine.Proofs.Pattern.Anywhere
import PatternMachine.Proofs.Pattern.Writing
import PatternMachine.Proofs.Regex.Outcome

/-!
# Regular expressions for literal texts

A text in which every operator has a backslash in front of it is the regular expression of this text: it is read as the
sequence of its characters (`Regex.parse_escape`), unless there is a character among them that no backslash can turn
into an ordinary one.  The sequence matches where the text stands in a line (`Pattern.matches_literal_iff`), so its
program finds the first occurrence (`Regex.scan_escape`).
-/

namespace PatternMachine

namespace Pattern

/-- The characters of a text, one after the other. -/
def literal (text : List Char) : Pattern :=
  .seq (text.map fun c => .char (String.singleton c))

section Literal

variable {text : List Char}

private theorem writtenAll_chars (text : List Char) :
    writtenAll (text.map fun c => .char (String.singleton c)) = text.flatMap writtenChar := by
  induction text with
  | nil => rfl
  | cons c text ih => simp [writtenAll, written, ih]

private theorem isWritable_literal (hne : text ≠ []) (hplain : ∀ c ∈ text, ".^$".toList.contains c = false) :
    (literal text).isWritable false := by
  refine isWritable_seq_iff.2 ⟨by simpa using hne, areWritable_iff.2 fun p hp => ?_⟩
  obtain ⟨c, hc, rfl⟩ := List.mem_map.1 hp
  exact isWritable_char_iff.2 ⟨rfl, c, rfl, hplain c hc⟩

private theorem width_literal (text : List Char) : (literal text).width = text.length := by
  rw [literal, width]
  induction text with
  | nil => rfl
  | cons c text ih =>
    rw [List.map_cons, widthAll, ih, width, List.length_cons, Nat.add_comm]

private theorem code_literal (text : List Char) (base : Nat) :
    (literal text).code base = text.map fun c => .char (String.singleton c) := by
  rw [literal, code]
  induction text generalizing base with
  | nil => rfl
  | cons c text ih => rw [List.map_cons, codeAll, ih, List.map_cons, code, List.singleton_append]

private theorem runs_char_iff {l : List Char} {start : Int} {c : Char} {i j : Nat} :
    (char (String.singleton c)).Runs l.toArray start i j ↔ l[i]? = some c ∧ j = i + 1 := by
  rw [Runs, List.getElem?_toArray]
  refine and_congr_left fun _ => ⟨?_, fun h => ⟨c, h, rfl⟩⟩
  rintro ⟨c', h, hc⟩
  have hlist := congrArg String.toList hc
  rw [String.toList_singleton, String.toList_singleton] at hlist
  cases hlist
  exact h

private theorem cons_prefix_drop_iff {l : List Char} {c : Char} {k : Nat} :
    c :: text <+: l.drop k ↔ l[k]? = some c ∧ text <+: l.drop (k + 1) := by
  by_cases hk : k < l.length
  · rw [List.drop_eq_getElem_cons hk, List.cons_prefix_cons, List.getElem?_eq_getElem hk, Option.some.injEq, eq_comm]
  · rw [List.drop_eq_nil_of_le (by omega), List.getElem?_eq_none (by omega)]
    simp

/-- A literal text matches where it stands. -/
theorem matches_literal_iff {l : List Char} {start : Int} {k : Nat} :
    (literal text).Matches l.toArray start k ↔ text <+: l.drop k := by
  induction text generalizing k with
  | nil => simp [literal, Matches, Accepts, AcceptsAll, Runs, RunsAll]
  | cons c text ih =>
    have haccepts : ¬(char (String.singleton c)).Accepts l.toArray start k := by
      simp [Accepts]
    rw [literal, List.map_cons, matches_seq_cons, cons_prefix_drop_iff]
    simp only [haccepts, false_or, runs_char_iff, and_assoc, exists_and_left, exists_eq_left]
    exact and_congr_right fun _ => ih

end Literal

end Pattern

namespace Regex

/-- The text with a backslash in front of every operator. -/
def escape (text : String) : String :=
  String.ofList (text.toList.flatMap writtenChar)

/-- The instructions that read the characters of a text, one after the other, and accept. -/
def literalProgram (text : String) : Program :=
  (text.toList.map (fun c => Instr.char (String.singleton c)) ++ [Instr.accept]).toArray

variable {text line : String} {limit capacity : Int}

private theorem size_literalProgram (text : String) : (literalProgram text).size = text.length + 1 := by
  rw [literalProgram, List.size_toArray, List.length_append, List.length_map, String.length_toList,
    List.length_singleton]

theorem parse_escape (hne : text ≠ "") (hplain : ∀ c ∈ text.toList, c ∉ ['.', '^', '$']) :
    Pattern.parse (escape text) = .ok (.literal text.toList) := by
  have hlist : text.toList ≠ [] := by simpa using hne
  have hwritable : (Pattern.literal text.toList).isWritable false :=
    Pattern.isWritable_literal hlist fun c hc => by simpa using hplain c hc
  have hparse := Pattern.parse_written hwritable
  rwa [Pattern.literal, Pattern.written, parenthesised, Pattern.writtenAll_chars] at hparse

private theorem compile_escape (hne : text ≠ "") (hplain : ∀ c ∈ text.toList, c ∉ ['.', '^', '$'])
    (hsize : text.length + 1 ≤ capacity) : compile (escape text) capacity = .ok (literalProgram text) := by
  rw [compile_of_parse (parse_escape hne hplain), Pattern.width_literal, String.length_toList, if_pos hsize,
    Pattern.code_literal, literalProgram]

private theorem infix_iff_exists_prefix {text line : List Char} : text <:+: line ↔ ∃ k, text <+: line.drop k := by
  constructor
  · rintro ⟨before, after, rfl⟩
    exact ⟨before.length, after, by simp⟩
  · rintro ⟨k, after, h⟩
    exact ⟨line.take k, after, by rw [List.append_assoc, h, List.take_append_drop]⟩

/-- A scan for a literal text finds its first occurrence. -/
private theorem scan_literalProgram (hne : text ≠ "") (hplain : ∀ c ∈ text.toList, c ∉ ['.', '^', '$'])
    (hsize : text.length + 1 ≤ limit) (hline : line.length ≤ limit) :
    ∃ k?, (literalProgram text).scan line { limit } = .ok k? ∧ Finds {k | text.toList <+: line.toList.drop k} k? := by
  have hcompile := compile_escape hne hplain hsize
  obtain ⟨p, hp, hprogram⟩ := compile_eq_ok_iff.1 hcompile
  rw [parse_escape hne hplain] at hp
  cases hp
  have hc := Pattern.isComplete_of_parse (parse_escape hne hplain)
  have hanchor : ∀ a, (literalProgram text)[a]? = some .lineStart → a = 0 := by
    intro a ha
    have hmem := Array.mem_of_getElem? ha
    simp [literalProgram] at hmem
  obtain ⟨k?, hscan, hfinds⟩ := Program.scan_finds hc hprogram hanchor (by rw [size_literalProgram]; omega) hline
  refine ⟨k?, hscan, ?_⟩
  have hset : {k | k < line.length ∧ (Pattern.literal text.toList).Matches line.toList.toArray k k} =
      {k | text.toList <+: line.toList.drop k} := by
    ext k
    simp only [Set.mem_ofPred_eq, Pattern.matches_literal_iff, and_iff_right_iff_imp]
    intro hprefix
    by_contra hk
    rw [List.drop_eq_nil_of_le (by rw [String.length_toList]; omega), List.prefix_nil] at hprefix
    exact hne (by simpa using hprefix)
  rwa [← hset]

/-- A text with a backslash in front of every operator is compiled to the instructions that read it, and a scan for it
finds its first occurrence, unless there is a character in it that stands for more than itself, or the counters are
limited to less than the length of the program or of the line. -/
theorem scan_escape (text : String) (hne : text ≠ "") (hplain : ∀ c ∈ text.toList, c ∉ ['.', '^', '$']) (line : String)
    (limit : Int) (hsize : text.length + 1 ≤ limit) (hline : line.length ≤ limit) :
    compile (escape text) limit = .ok (literalProgram text) ∧
    (∀ k, (literalProgram text).scan line { limit } = .ok (some k) ↔
      IsLeast {k | (line.toList.drop k).take text.length = text.toList} k) ∧
    ((literalProgram text).scan line { limit } = .ok none ↔ ¬text.toList <:+: line.toList) := by
  obtain ⟨k?, hscan, hfinds⟩ := scan_literalProgram hne hplain hsize hline
  have hset : {k | (line.toList.drop k).take text.length = text.toList} = {k | text.toList <+: line.toList.drop k} := by
    ext k
    rw [Set.mem_ofPred_eq, Set.mem_ofPred_eq, List.prefix_iff_eq_take, String.length_toList, eq_comm]
  refine ⟨compile_escape hne hplain hsize, fun k => ?_, ?_⟩
  · rw [hscan, hset, Except.ok.injEq]
    exact hfinds.eq_some_iff
  · rw [hscan, Except.ok.injEq, infix_iff_exists_prefix]
    have hsome := hfinds.isSome_iff
    rw [← Option.not_isSome_iff_eq_none, hsome]
    rfl

/-- Backslashes and operators next to each other, and an occurrence that begins within an attempt that fails. -/
theorem scan_escape_overlapping : escape "\\|\\|*" = "\\\\\\|\\\\\\|\\*" ∧
    compile (escape "\\|\\|*") 7 = .ok (literalProgram "\\|\\|*") ∧
    (literalProgram "\\|\\|*").scan "\\|\\|\\|*" { limit := 7 } = .ok (some 2) ∧
    IsLeast {k : Nat | ("\\|\\|\\|*".toList.drop k).take 5 = "\\|\\|*".toList} 2 := by
  have hplain : ∀ c ∈ "\\|\\|*".toList, c ∉ ['.', '^', '$'] := by simp
  obtain ⟨hcompile, hfirst, -⟩ := scan_escape "\\|\\|*" (by decide) hplain "\\|\\|\\|*" 7 (by decide) (by decide)
  have hscan : (literalProgram "\\|\\|*").scan "\\|\\|\\|*" { limit := 7 } = .ok (some 2) := by decide +kernel
  exact ⟨by decide +kernel, hcompile, hscan, (hfirst 2).1 hscan⟩

end Regex

end PatternMachine
