import PatternMachine.Command
import PatternMachine.Proofs.Regex.Outcome
import PatternMachine.Proofs.Text.Lines

/-!
# What the command reports

A regular expression that has a program has a description as well, since nothing in a compiled program cannot be listed
(`Regex.description_of_compile`), and one that has none has the same error in both places
(`Regex.description_of_error`).  The lines that can be scanned are reported one after the other, in front of whatever
comes of those behind them (`Command.reportLines_append`), so the report consists of the lines with a match up to the
first error (`Command.run_report`).
-/

namespace PatternMachine

/-! ### Listings -/

private theorem mapM_eq_ok {ε α β : Type} {f : α → Except ε β} {l : List α} (h : ∀ x ∈ l, ∃ y, f x = .ok y) :
    ∃ ys, l.mapM f = .ok ys := by
  induction l with
  | nil => exact ⟨[], rfl⟩
  | cons x l ih =>
    obtain ⟨y, hy⟩ := h x (List.mem_cons_self ..)
    obtain ⟨ys, hys⟩ := ih fun z hz => h z (List.mem_cons_of_mem _ hz)
    refine ⟨y :: ys, ?_⟩
    rw [List.mapM_cons, hy, hys]
    rfl

/-- Every program that fits can be listed. -/
private theorem Program.Fits.exists_listing {program : Program} (hf : program.Fits) :
    ∃ text, listing program = .ok text := by
  have hline : ∀ x ∈ program.toList.zipIdx, ∃ text, listingLine x.1 x.2 = .ok text := by
    rintro ⟨i, address⟩ hx
    have hget := List.mem_zipIdx_iff_getElem?.1 hx
    rw [Array.getElem?_toList] at hget
    have hfit := hf address i hget
    cases i with
    | illegal => exact hfit.elim
    | _ => exact ⟨_, rfl⟩
  obtain ⟨lines, hlines⟩ := mapM_eq_ok hline
  exact ⟨"\n".intercalate lines, by rw [listing, hlines]; rfl⟩

namespace Regex

variable {regex : String} {program : Program}

theorem description_of_error {e : Error} (h : compile regex = .error e) : description regex = .error e := by
  unfold compile at h
  unfold description
  cases hp : Pattern.parse regex with
  | error e' =>
    have herror : Error.parse e' = e := by
      simpa [hp, Except.mapError, bind, Except.bind] using h
    subst herror
    rfl
  | ok p =>
    rw [hp] at h
    cases hcompile : p.compile with
    | error e' =>
      have herror : Error.code e' = e := by
        simpa [hcompile, Except.mapError, bind, Except.bind] using h
      subst herror
      simp [hcompile, Except.mapError, bind, Except.bind]
    | ok program => simp [hcompile, Except.mapError, bind, Except.bind] at h

theorem description_of_compile (h : compile regex = .ok program) : ∃ text, description regex = .ok text := by
  obtain ⟨p, hp, hcompile⟩ := compile_eq_ok_iff.1 h
  obtain ⟨code, hcode⟩ := (fits_of_compile h).1.exists_listing
  exact ⟨_, by simp [description, hp, hcompile, hcode, Except.mapError, bind, Except.bind]; rfl⟩

end Regex

namespace Command

variable {prog path out : String} {program : Program} {last : Status} {number : Nat}

/-! ### Reports of lines -/

/-- The reports of the matches in lines, of which the first one has the given number: one for each line in which the
program matches somewhere, with the first position where it does. -/
def hits (path : String) (program : Program) (number : Nat) (lines : List String) : List String :=
  (lines.zipIdx number).filterMap fun (line, i) =>
    match program.scan line with
    | .ok (some k) => some s!"{path}:{i}:{k}: {line}\n"
    | _ => none

/-- Lines that can be scanned are reported before those behind them. -/
theorem reportLines_append {lines : List String} (h : ∀ line ∈ lines, ∃ k?, program.scan line = .ok k?)
    (more : List String) :
    reportLines prog path program last number out (lines ++ more) =
      reportLines prog path program last (number + lines.length)
        (out ++ String.join (hits path program number lines)) more := by
  induction lines generalizing number out with
  | nil => simp [hits]
  | cons line lines ih =>
    obtain ⟨k?, hk⟩ := h line (List.mem_cons_self ..)
    have hrest : ∀ l ∈ lines, ∃ k?, program.scan l = .ok k? := fun l hl => h l (List.mem_cons_of_mem _ hl)
    have hnumber : number + 1 + lines.length = number + (lines.length + 1) := by omega
    rw [List.cons_append, reportLines, hk, List.length_cons, ← hnumber]
    cases k? with
    | none =>
      have hhits : hits path program number (line :: lines) = hits path program (number + 1) lines := by
        simp [hits, List.zipIdx_cons, hk]
      rw [hhits]
      exact ih hrest
    | some k =>
      have hhits : hits path program number (line :: lines) =
          hitLine path number k line :: hits path program (number + 1) lines := by
        simp [hits, List.zipIdx_cons, hk, hitLine]
      rw [hhits, String.join_cons, ← String.append_assoc]
      exact ih hrest

/-! ### The report of a file -/

private theorem run_of_error {read : String → Except FileError ByteArray} {regex : String} {e : Regex.Error}
    (h : Regex.compile regex = .error e) :
    run read prog [regex, path] = .fail prog "" e.message := by
  rw [run, report, preamble, Regex.description_of_error h]
  rfl

private theorem run_of_compile {read : String → Except FileError ByteArray} {regex description text : String}
    {bytes : ByteArray} (h : Regex.compile regex = .ok program) (hd : Regex.description regex = .ok description)
    (hread : read path = .ok bytes) (htext : String.fromUTF8? bytes = some text) :
    run read prog [regex, path] =
      reportLines prog path program .success 1 (description ++ "\n") (Text.splitLines text) := by
  have hlines : Text.read bytes = { lines := Text.lines text, isText := true } := by
    rw [Text.read, htext]
  have hreport : run read prog [regex, path] =
      let file := Text.read bytes
      reportLines prog path program (if file.isText then .success else .undecodable) 1 (description ++ "\n")
        file.lines := by
    rw [run, report, preamble, hd, h, hread]
    rfl
  rw [hreport, hlines, ← Text.lines_eq_splitLines]
  rfl

/-- The command with a regular expression and the path of a text file.  If the regular expression has no program, the
error is all that is written.  Otherwise its description is, and then every line in which the program matches, in order,
with its number and the first position of a match: all of them if every line can be scanned, and else those before the
first line that cannot, behind which the error comes. -/
theorem run_report (read : String → Except FileError ByteArray) (prog regex path : String) (bytes : ByteArray)
    (text : String) (hread : read path = .ok bytes) (htext : String.fromUTF8? bytes = some text) :
    (∀ e, Regex.compile regex = .error e → run read prog [regex, path] =
      { out := "", err := prog ++ ": error: " ++ e.message ++ "\n", status := .failure }) ∧
    ∀ program, Regex.compile regex = .ok program → ∃ description, Regex.description regex = .ok description ∧
      ((∀ line ∈ Text.splitLines text, ∃ k?, program.scan line = .ok k?) → run read prog [regex, path] =
        { out := description ++ "\n" ++ String.join (hits path program 1 (Text.splitLines text))
          err := "", status := .success }) ∧
      ∀ before line after e, Text.splitLines text = before ++ line :: after →
        (∀ l ∈ before, ∃ k?, program.scan l = .ok k?) → program.scan line = .error e → run read prog [regex, path] =
          { out := description ++ "\n" ++ String.join (hits path program 1 before)
            err := prog ++ ": error: " ++ e.message ++ "\n", status := .failure } := by
  refine ⟨fun e he => run_of_error he, fun program h => ?_⟩
  obtain ⟨description, hd⟩ := Regex.description_of_compile h
  have hrun : run read prog [regex, path] =
      reportLines prog path program .success 1 (description ++ "\n") (Text.splitLines text) :=
    run_of_compile h hd hread htext
  refine ⟨description, hd, fun hall => ?_, fun before line after e hlines hbefore he => ?_⟩
  · rw [hrun, ← List.append_nil (Text.splitLines text), reportLines_append hall, List.append_nil]
    rfl
  · rw [hrun, hlines, reportLines_append hbefore, reportLines, he]
    rfl

/-- The anchor behind the letter of the third line ends the report, behind the match in the first line. -/
theorem run_report_misplacedAnchor : ∃ program description, Regex.compile "b|a^" = .ok program ∧
    Regex.description "b|a^" = .ok description ∧
    run (fun _ => .ok "b\r\n\nab".toUTF8) "grep" ["b|a^", "notes"] =
      { out := description ++ "\n" ++ String.join (hits "notes" program 1 ["b", ""])
        err := "grep: error: " ++ (EvalError.misplacedAnchor 4).message ++ "\n", status := .failure } := by
  have hcompile : Regex.compile "b|a^" = .ok #[.split 1 3, .char "b", .jump 5, .char "a", .lineStart, .accept] := by
    decide +kernel
  have hlines : Text.splitLines "b\r\n\nab" = ["b", ""] ++ "ab" :: [] := by decide +kernel
  obtain ⟨description, hd, -, hfirst⟩ :=
    (run_report (fun _ => .ok "b\r\n\nab".toUTF8) "grep" "b|a^" "notes" _ "b\r\n\nab" rfl rfl).2 _ hcompile
  refine ⟨_, description, hcompile, hd, hfirst ["b", ""] "ab" [] (.misplacedAnchor 4) hlines ?_ (by decide +kernel)⟩
  intro line hline
  have hboth : line = "b" ∨ line = "" := List.mem_pair.1 hline
  rcases hboth with rfl | rfl
  · exact ⟨some 0, by decide +kernel⟩
  · exact ⟨none, by decide +kernel⟩

end Command

end PatternMachine
