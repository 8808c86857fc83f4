import PatternMachine.Text.Lines

/-!
# The lines of a text

Lines are read in one pass, whatever their terminators are.  They are the pieces between the line feeds of the text in
which every terminator has been replaced by a line feed; what stands behind the last one counts if it is not empty
(`Text.lines_eq_splitLines`).

Where lines are joined by line feeds, what stands in front of one can be told from what begins with it
(`Text.append_inj_of_head`).
-/

namespace PatternMachine.Text

/-- The text with a line feed for every line terminator. -/
def normalised : List Char → List Char
  | [] => []
  | '\r' :: '\n' :: rest => '\n' :: normalised rest
  | '\r' :: rest => '\n' :: normalised rest
  | c :: rest => c :: normalised rest

/-- The list without its last member, if that is empty. -/
def dropEmptyLast (pieces : List (List Char)) : List (List Char) :=
  if pieces.getLast? = some [] then pieces.dropLast else pieces

/-- The pieces between the line terminators of a text, without an empty one at its end. -/
def splitLines (text : String) : List String :=
  (dropEmptyLast ((normalised text.toList).splitOn '\n')).map String.ofList

private theorem dropEmptyLast_cons {pieces : List (List Char)} (h : pieces ≠ []) (piece : List Char) :
    dropEmptyLast (piece :: pieces) = piece :: dropEmptyLast pieces := by
  obtain ⟨next, rest, rfl⟩ := List.exists_cons_of_ne_nil h
  unfold dropEmptyLast
  rw [List.getLast?_cons_cons, List.dropLast_cons_cons]
  split <;> rfl

private theorem splitOn_newline (text : List Char) : ('\n' :: text).splitOn '\n' = [] :: text.splitOn '\n' := by
  simp [List.splitOn, List.splitOnP_cons_eq_if_modifyHead]

private theorem splitOn_cons {c : Char} (hc : c ≠ '\n') (text : List Char) :
    (c :: text).splitOn '\n' = (text.splitOn '\n').modifyHead (c :: ·) := by
  simp [List.splitOn, List.splitOnP_cons_eq_if_modifyHead, hc]

/-- At the beginning of a line nothing has been read of it. -/
private theorem modifyHead_nil (pieces : List (List Char)) :
    pieces.modifyHead (([] : List Char).reverse ++ ·) = pieces := by
  have hid : (([] : List Char).reverse ++ ·) = id := rfl
  rw [hid, List.modifyHead_id, id]

/-- A terminator ends the current line. -/
private theorem append_splitOn_newline (line : List Char) (done : List String) (text : List Char) :
    (String.ofList line.reverse :: done).reverse ++
        (dropEmptyLast ((text.splitOn '\n').modifyHead (([] : List Char).reverse ++ ·))).map String.ofList =
      done.reverse ++
        (dropEmptyLast ((('\n' :: text).splitOn '\n').modifyHead (line.reverse ++ ·))).map String.ofList := by
  have hne : text.splitOn '\n' ≠ [] := List.splitOn_ne_nil _ _
  rw [modifyHead_nil, splitOn_newline, List.modifyHead_cons, List.append_nil, dropEmptyLast_cons hne]
  simp

/-- What has been read of the current line stands in front of the first piece of the rest. -/
private theorem linesFrom_eq (line : List Char) (done : List String) (text : List Char) :
    linesFrom line done text = done.reverse ++
      (dropEmptyLast (((normalised text).splitOn '\n').modifyHead (line.reverse ++ ·))).map String.ofList := by
  fun_induction linesFrom line done text with
  | case1 line done hline =>
    rw [List.isEmpty_iff.1 hline]
    simp [normalised, dropEmptyLast]
  | case2 line done hline =>
    rw [List.isEmpty_iff] at hline
    simp [normalised, dropEmptyLast, hline]
  | case3 line done rest ih =>
    rw [ih, normalised]
    exact append_splitOn_newline line done _
  | case4 line done rest hrest ih =>
    rw [ih, normalised]
    · exact append_splitOn_newline line done _
    · exact hrest
  | case5 line done rest ih =>
    rw [ih, normalised]
    · exact append_splitOn_newline line done _
    · simp
    · simp
  | case6 line done c rest hcrlf hcr hlf ih =>
    have hc : c ≠ '\n' := hlf
    rw [ih, normalised, splitOn_cons hc, List.modifyHead_modifyHead]
    · simp [Function.comp_def]
    · exact hcrlf
    · exact hcr

theorem lines_eq_splitLines (text : String) : lines text = splitLines text := by
  rw [lines, linesFrom_eq, modifyHead_nil, List.reverse_nil, List.nil_append, splitLines]

/-- Each kind of terminator ends one line, and the last line needs none. -/
example : lines "a\r\n\rb\nc" = ["a", "", "b", "c"] := by decide +kernel

/-! ### Texts one behind the other -/

/-- Lists are told apart from what stands behind them if that begins with an element of another kind. -/
theorem append_inj_of_head {α : Type} {P : α → Bool} {l l' rest rest' : List α} (hl : ∀ x ∈ l, P x)
    (hl' : ∀ x ∈ l', P x) (hrest : ∀ x ∈ rest.head?, P x = false) (hrest' : ∀ x ∈ rest'.head?, P x = false)
    (h : l ++ rest = l' ++ rest') : l = l' ∧ rest = rest' := by
  have hfront : ∀ {l rest : List α}, (∀ x ∈ l, P x) → (∀ x ∈ rest.head?, P x = false) →
      (l ++ rest).takeWhile P = l := by
    intro l rest hl hrest
    rw [List.takeWhile_append_of_pos hl]
    cases rest with
    | nil => simp
    | cons x rest => simp [hrest x rfl]
  have hlist : l = l' := by
    rw [← hfront hl hrest, h, hfront hl' hrest']
  subst hlist
  exact ⟨rfl, List.append_cancel_left h⟩

/-- Lines joined by line feeds are the lines with a line feed in front of each, but for the first of these. -/
theorem toList_intercalate_newline (lines : List String) :
    ("\n".intercalate lines).toList = (lines.flatMap fun line => '\n' :: line.toList).tail := by
  rw [String.toList_intercalate]
  induction lines with
  | nil => rfl
  | cons line lines ih =>
    cases lines with
    | nil => simp
    | cons next lines =>
      simp only [List.map_cons, List.flatMap_cons] at ih ⊢
      rw [List.intercalate_cons_cons, ih]
      simp

end PatternMachine.Text
