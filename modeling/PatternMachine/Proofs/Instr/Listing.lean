import PatternMachine.Instr.Listing
import PatternMachine.Proofs.Text.Lines

/-!
# Reading listings

A listing determines its program (`listing_eq_iff`), although characters stand in it as they are, line feeds among
them, so that its lines are not those of the instructions.  It has to be read from the left.  The address in front of an
instruction is known from the number of instructions before it.  The word of an operation is no beginning of another
one (`Opcode.eq_of_word_prefix`), so it tells what operands follow; and an operand is one character, or an address,
which goes on as long as there are digits (`addressText_append_inj`).  So the text of an instruction can be told from
whatever lines stand behind it (`Instr.text_append_inj`), and the induction is on the instructions.
-/

namespace PatternMachine

/-! ### Addresses -/

private theorem ofDigitChars_paddedDigits (width n : Nat) : Nat.ofDigitChars 10 (paddedDigits width n) 0 = n := by
  rw [paddedDigits, Nat.ofDigitChars_append, Nat.ofDigitChars_replicate_zero, Nat.mul_zero,
    Nat.ofDigitChars_ten_toDigits]

private theorem paddedDigits_inj {width n m : Nat} (h : paddedDigits width n = paddedDigits width m) : n = m := by
  rw [← ofDigitChars_paddedDigits width n, h, ofDigitChars_paddedDigits]

private theorem isDigit_of_mem_paddedDigits {width n : Nat} {c : Char} (h : c ∈ paddedDigits width n) : c.isDigit := by
  unfold paddedDigits at h
  rcases List.mem_append.1 h with h | h
  · rw [(List.mem_replicate.1 h).2]
    rfl
  · exact Nat.isDigit_of_mem_toDigits (by decide) (by decide) h

/-- A minus sign is no digit, so a negative address is none of the others. -/
private theorem paddedDigits_ne_cons_minus (width n : Nat) (digits : List Char) :
    paddedDigits width n ≠ '-' :: digits := by
  intro h
  have hminus : '-' ∈ paddedDigits width n := by
    rw [h]
    exact List.mem_cons_self ..
  exact absurd (isDigit_of_mem_paddedDigits hminus) (by decide)

private theorem addressText_inj {a b : Int} (h : addressText a = addressText b) : a = b := by
  cases a with
  | ofNat n =>
    cases b with
    | ofNat m => rw [paddedDigits_inj (String.ofList_inj.1 h)]
    | negSucc m => exact absurd (String.ofList_inj.1 h) (paddedDigits_ne_cons_minus 4 n _)
  | negSucc n =>
    cases b with
    | ofNat m => exact absurd (String.ofList_inj.1 h).symm (paddedDigits_ne_cons_minus 4 m _)
    | negSucc m =>
      have hsucc : n + 1 = m + 1 := paddedDigits_inj (List.cons.inj (String.ofList_inj.1 h)).2
      rw [Nat.succ_inj.1 hsucc]

/-- The characters that addresses are written with. -/
def isAddressChar (c : Char) : Bool :=
  c.isDigit || c == '-'

private theorem isAddressChar_of_mem {a : Int} {c : Char} (h : c ∈ (addressText a).toList) : isAddressChar c := by
  unfold isAddressChar
  cases a with
  | ofNat n =>
    rw [addressText, String.toList_ofList] at h
    simp [isDigit_of_mem_paddedDigits h]
  | negSucc n =>
    rw [addressText, String.toList_ofList] at h
    rcases List.mem_cons.1 h with rfl | h
    · rfl
    · simp [isDigit_of_mem_paddedDigits h]

/-- An address ends in front of the first character that cannot belong to it. -/
theorem addressText_append_inj {a b : Int} {rest rest' : List Char}
    (hrest : ∀ c ∈ rest.head?, isAddressChar c = false) (hrest' : ∀ c ∈ rest'.head?, isAddressChar c = false)
    (h : (addressText a).toList ++ rest = (addressText b).toList ++ rest') : a = b ∧ rest = rest' := by
  obtain ⟨haddress, htail⟩ := Text.append_inj_of_head (fun _ => isAddressChar_of_mem) (fun _ => isAddressChar_of_mem)
    hrest hrest' h
  exact ⟨addressText_inj (String.toList_inj.1 haddress), htail⟩

/-! ### Instructions -/

/-- The word that the text of an instruction begins with. -/
def Opcode.word : Opcode → List Char
  | char => ['c', 'h', 'a', 'r']
  | any => ['d', 'o', 't']
  | lineStart => ['c', 'a', 'r', 'e', 't']
  | lineEnd => ['d', 'o', 'l', 'l', 'a', 'r']
  | accept => ['m', 'a', 't', 'c', 'h']
  | jump => ['j', 'u', 'm', 'p']
  | split => ['s', 'p', 'l', 'i', 't']
  | illegal => []

/-- No word of an operation is the beginning of another one. -/
theorem Opcode.eq_of_word_prefix {a b : Opcode} (ha : a ≠ illegal) (h : a.word <+: b.word) : a = b := by
  revert h ha
  cases a <;> cases b <;> decide

namespace Instr

/-- Whether the instruction is an operation of the machine and has exactly one character, if it has any. -/
def isProper : Instr → Bool
  | char text => text.length == 1
  | any | lineStart | lineEnd | accept | jump _ | split _ _ => true
  | illegal => false

/-- The text of an instruction behind its word. -/
def operands : Instr → List Char
  | char text => ' ' :: text.toList
  | jump target => ' ' :: (addressText target).toList
  | split first second => ' ' :: ((addressText first).toList ++ ',' :: ' ' :: (addressText second).toList)
  | any | lineStart | lineEnd | accept | illegal => []

variable {i j : Instr} {rest rest' : List Char}

private theorem exists_eq_singleton {text : String} (h : (char text).isProper) : ∃ c, text = String.singleton c := by
  have hlength : text.toList.length = 1 := by
    rw [String.length_toList]
    simpa [isProper] using h
  obtain ⟨c, hc⟩ := List.length_eq_one_iff.1 hlength
  refine ⟨c, ?_⟩
  rw [← String.toList_inj, hc, String.toList_singleton]

private theorem opcode_ne_illegal (h : i.isProper) : i.opcode ≠ .illegal := by
  cases i with
  | illegal => cases h
  | _ => exact nofun

private theorem text_eq (h : i.isProper) : i.text = .ok (String.ofList (i.opcode.word ++ i.operands)) := by
  cases i with
  | illegal => cases h
  | _ => simp [text, opcode, Opcode.word, operands, ← String.toList_inj]

/-- Nothing follows, or a new line. -/
def EndsLine (rest : List Char) : Prop :=
  ∀ c ∈ rest.head?, c = '\n'

private theorem EndsLine.not_isAddressChar (h : EndsLine rest) : ∀ c ∈ rest.head?, isAddressChar c = false := by
  intro c hc
  rw [h c hc]
  rfl

private theorem operands_append_inj (hopcode : i.opcode = j.opcode) (hi : i.isProper) (hj : j.isProper)
    (hrest : EndsLine rest) (hrest' : EndsLine rest') (h : i.operands ++ rest = j.operands ++ rest') :
    i = j ∧ rest = rest' := by
  cases i with
  | char text =>
    cases j with
    | char text' =>
      -- the one character may be a line feed
      obtain ⟨c, rfl⟩ := exists_eq_singleton hi
      obtain ⟨c', rfl⟩ := exists_eq_singleton hj
      simp only [operands, String.toList_singleton, List.cons_append, List.nil_append, List.cons.injEq] at h
      obtain ⟨-, rfl, rfl⟩ := h
      exact ⟨rfl, rfl⟩
    | _ => cases hopcode
  | jump target =>
    cases j with
    | jump target' =>
      simp only [operands, List.cons_append, List.cons.injEq, true_and] at h
      obtain ⟨rfl, rfl⟩ := addressText_append_inj hrest.not_isAddressChar hrest'.not_isAddressChar h
      exact ⟨rfl, rfl⟩
    | _ => cases hopcode
  | split first second =>
    cases j with
    | split first' second' =>
      simp only [operands, List.cons_append, List.append_assoc, List.cons.injEq, true_and] at h
      have hcomma : ∀ l : List Char, ∀ c ∈ (',' :: l).head?, isAddressChar c = false := by
        rintro l c ⟨⟩
        rfl
      obtain ⟨rfl, hsecond⟩ := addressText_append_inj (hcomma _) (hcomma _) h
      simp only [List.cons.injEq, true_and] at hsecond
      obtain ⟨rfl, rfl⟩ := addressText_append_inj hrest.not_isAddressChar hrest'.not_isAddressChar hsecond
      exact ⟨rfl, rfl⟩
    | _ => cases hopcode
  | illegal => cases hi
  | any | lineStart | lineEnd | accept =>
    cases j <;> cases hopcode
    exact ⟨rfl, h⟩

/-- The text of an instruction tells the instruction and where it ends. -/
theorem text_append_inj (hi : i.isProper) (hj : j.isProper) (hrest : EndsLine rest) (hrest' : EndsLine rest')
    (h : i.opcode.word ++ i.operands ++ rest = j.opcode.word ++ j.operands ++ rest') : i = j ∧ rest = rest' := by
  rw [List.append_assoc, List.append_assoc] at h
  have hopcode : i.opcode = j.opcode := by
    have hword : i.opcode.word <+: j.opcode.word ++ (j.operands ++ rest') := by
      rw [← h]
      exact List.prefix_append _ _
    rcases List.prefix_or_prefix_of_prefix hword (List.prefix_append _ _) with hprefix | hprefix
    · exact Opcode.eq_of_word_prefix (opcode_ne_illegal hi) hprefix
    · exact (Opcode.eq_of_word_prefix (opcode_ne_illegal hj) hprefix).symm
  rw [hopcode] at h
  exact operands_append_inj hopcode hi hj hrest hrest' (List.append_cancel_left h)

end Instr

/-! ### Programs -/

open Instr (EndsLine)

/-- The line of a listing for a proper instruction. -/
def listedLine (address : Nat) (i : Instr) : List Char :=
  (addressText address).toList ++ ':' :: ' ' :: (i.opcode.word ++ i.operands)

/-- The lines for instructions from an address on, with a line feed in front of each. -/
def listedFrom : (address : Nat) → List Instr → List Char
  | _, [] => []
  | address, i :: is => '\n' :: (listedLine address i ++ listedFrom (address + 1) is)

private theorem endsLine_listedFrom (address : Nat) (is : List Instr) : EndsLine (listedFrom address is) := by
  cases is with
  | nil => exact nofun
  | cons i is =>
    rintro c ⟨⟩
    rfl

private theorem listingLine_eq {i : Instr} (h : i.isProper) (address : Nat) :
    listingLine i address = .ok (String.ofList (listedLine address i)) := by
  rw [listingLine, Instr.text_eq h]
  simp [Except.map, listedLine, ← String.toList_inj]

private theorem mapM_listingLine {is : List Instr} (h : ∀ i ∈ is, i.isProper) (address : Nat) :
    ∃ lines, ((is.zipIdx address).mapM fun (i, address) => listingLine i address) = .ok lines ∧
      (lines.flatMap fun line => '\n' :: line.toList) = listedFrom address is := by
  induction is generalizing address with
  | nil => exact ⟨[], rfl, rfl⟩
  | cons i is ih =>
    obtain ⟨hi, his⟩ := List.forall_mem_cons.1 h
    obtain ⟨lines, hlines, hlisted⟩ := ih his (address + 1)
    refine ⟨String.ofList (listedLine address i) :: lines, ?_, ?_⟩
    · have hline := listingLine_eq hi address
      simp only [List.zipIdx_cons, List.mapM_cons, hline, hlines]
      rfl
    · rw [List.flatMap_cons, String.toList_ofList, hlisted]
      rfl

private theorem listing_eq {program : Program} (h : ∀ i ∈ program, i.isProper) :
    listing program = .ok (String.ofList (listedFrom 0 program.toList).tail) := by
  have hproper : ∀ i ∈ program.toList, i.isProper := by simpa using h
  obtain ⟨lines, hlines, hlisted⟩ := mapM_listingLine hproper 0
  rw [listing, hlines, ← hlisted, ← Text.toList_intercalate_newline, String.ofList_toList]
  rfl

private theorem listedFrom_inj {is js : List Instr} (his : ∀ i ∈ is, i.isProper) (hjs : ∀ j ∈ js, j.isProper)
    {address : Nat} (h : listedFrom address is = listedFrom address js) : is = js := by
  induction is generalizing js address with
  | nil =>
    cases js with
    | nil => rfl
    | cons j js => cases h
  | cons i is ih =>
    cases js with
    | nil => cases h
    | cons j js =>
      have hi := List.forall_mem_cons.1 his
      have hj := List.forall_mem_cons.1 hjs
      simp only [listedFrom, listedLine, List.append_assoc, List.cons_append, List.cons.injEq, true_and] at h
      have htext := List.append_cancel_left h
      simp only [List.cons.injEq, true_and, ← List.append_assoc] at htext
      obtain ⟨rfl, hrest⟩ :=
        Instr.text_append_inj hi.1 hj.1 (endsLine_listedFrom _ is) (endsLine_listedFrom _ js) htext
      rw [ih hi.2 hj.2 hrest]

private theorem listedFrom_eq_of_tail {is js : List Instr} {address : Nat}
    (h : (listedFrom address is).tail = (listedFrom address js).tail) :
    listedFrom address is = listedFrom address js := by
  cases is with
  | nil =>
    cases js with
    | nil => rfl
    | cons j js => simp [listedFrom, listedLine] at h
  | cons i is =>
    cases js with
    | nil => simp [listedFrom, listedLine] at h
    | cons j js =>
      rw [listedFrom, listedFrom, List.tail_cons, List.tail_cons] at h
      rw [listedFrom, listedFrom, h]

/-- Programs with the same listing are the same. -/
theorem listing_eq_iff (program program' : Program) (h : ∀ i ∈ program, i.isProper) (h' : ∀ i ∈ program', i.isProper) :
    listing program = listing program' ↔ program = program' := by
  constructor
  · intro hlisting
    rw [listing_eq h, listing_eq h', Except.ok.injEq, String.ofList_inj] at hlisting
    have hlisted := listedFrom_eq_of_tail hlisting
    exact Array.toList_inj.1 (listedFrom_inj (by simpa using h) (by simpa using h') hlisted)
  · intro heq
    rw [heq]

/-- A line feed as a character, next to what could be the address of another instruction, and negative destinations. -/
theorem listing_lineFeed_ne :
    (∀ i ∈ (#[.char "\n", .char "0", .jump (-12)] : Program), i.isProper) ∧
    (∀ i ∈ (#[.char "\n", .char "0", .jump (-120)] : Program), i.isProper) ∧
    listing #[.char "\n", .char "0", .jump (-12)] ≠ listing #[.char "\n", .char "0", .jump (-120)] := by
  have hproper : ∀ i ∈ (#[.char "\n", .char "0", .jump (-12)] : Program), i.isProper := by decide
  have hproper' : ∀ i ∈ (#[.char "\n", .char "0", .jump (-120)] : Program), i.isProper := by decide
  refine ⟨hproper, hproper', fun h => ?_⟩
  have heq := (listing_eq_iff _ _ hproper hproper').1 h
  exact absurd heq (by decide)

/-- Two characters in one instruction can look like the end of one line and all of the next. -/
example : listing #[.char "a\n0001: dot"] = listing #[.char "a", .any] := by
  rfl

end PatternMachine
