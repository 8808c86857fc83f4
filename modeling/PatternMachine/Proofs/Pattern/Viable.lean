import Mathlib.Order.Bounds.Basic
import PatternMachine.Proofs.Pattern.Reading

/-!
# Errors at the earliest position

A text is viable if some regular expression begins with it.  The scanner has no error as long as the text is viable:
from whatever state it is in, a few more characters make a regular expression of the text, namely an operator behind a
backslash that waits for one, an item, and a parenthesis for every open group (`Scanner.scan_completion`).  So an error
at some position is unavoidable there and has been avoidable before, and what is wrong at the end of a text can be
mended (`Pattern.parse_earliest`).
-/

namespace PatternMachine

/-- The position of the character at which the error shows; nothing, if it shows at the end of the text. -/
def ParseError.position? : ParseError → Option Nat
  | invalidEscape pos (some _) | unopenedGroup pos | nothingBefore pos => some pos
  | invalidEscape _ none | unclosedGroup | empty => none

/-- Some regular expression begins with the text. -/
def Viable (text : List Char) : Prop :=
  ∃ rest p, Pattern.parse (String.ofList (text ++ rest)) = .ok p

/-! ### What is left open at the end of a text -/

/-- A backslash at the end of the text still waits for its operator: what stands before it has tokens. -/
def Dangles (text : List Char) : Prop :=
  ∃ front w, text = front ++ ['\\'] ∧ Token.ofText? front = some w

namespace Token

def isLeft : Token → Bool
  | left => true
  | _ => false

def isRight : Token → Bool
  | right => true
  | _ => false

end Token

/-- More groups are opened than closed by the tokens of the text. -/
def LeavesOpen (text : List Char) : Prop :=
  ∃ w, Token.ofText? text = some w ∧ w.countP Token.isRight < w.countP Token.isLeft

namespace Scanner

open Token (SpellsAll)

variable {s r : Scanner} {c : Char} {e : ParseError} {text rest : List Char} {w : List Token}

/-! ### Steps -/

private theorem scan_append_ok (h : text.foldlM step s = .ok r) (rest : List Char) :
    (text ++ rest).foldlM step s = rest.foldlM step r := by
  rw [List.foldlM_append, h]
  rfl

private theorem scan_cons_error (h : s.step c = .error e) (rest : List Char) :
    (c :: rest).foldlM step s = .error e := by
  rw [List.foldlM_cons, h]
  rfl

private theorem step_keeps (h : s.step c = .ok r) :
    r.pos = s.pos + 1 ∧ (r.escaped = true ↔ s.escaped = false ∧ c = '\\') := by
  rcases step_cases s c with ⟨-, hstep⟩ | ⟨hs, hc, hstep⟩ | ⟨hc, t, hstep⟩
  all_goals rw [hstep] at h
  · cases h
  · cases h
    exact ⟨rfl, fun _ => ⟨hs, hc⟩, fun _ => rfl⟩
  · cases hfeed : feed { s with escaped := false } t with
    | error e =>
      rw [hfeed] at h
      cases h
    | ok next =>
      rw [hfeed] at h
      cases h
      have hescaped : next.escaped = false := (feed_keeps hfeed).2
      refine ⟨rfl, fun hr => ?_, fun hbackslash => absurd hbackslash hc⟩
      have hr' : next.escaped = true := hr
      rw [hescaped] at hr'
      cases hr'

/-- An error shows at the character that is read, and if it names a character, then this one. -/
private theorem step_eq_error (h : s.step c = .error e) :
    e.position? = some s.pos ∧ ∀ n c?, e = .invalidEscape n c? → n = s.pos ∧ c? = some c := by
  rcases step_cases s c with ⟨-, hstep⟩ | ⟨-, -, hstep⟩ | ⟨-, t, hstep⟩
  all_goals rw [hstep] at h
  · cases h
    refine ⟨rfl, ?_⟩
    rintro n c? ⟨⟩
    exact ⟨rfl, rfl⟩
  · cases h
  · cases hfeed : feed { s with escaped := false } t with
    | ok next =>
      rw [hfeed] at h
      cases h
    | error e' =>
      rw [hfeed] at h
      cases h
      rcases feed_eq_error hfeed with rfl | rfl
      · exact ⟨rfl, nofun⟩
      · exact ⟨rfl, nofun⟩

private theorem position?_of_finish (h : s.finish = .error e) : e.position? = none := by
  unfold finish at h
  split at h
  · cases h
    rfl
  · split at h
    · cases h
      rfl
    · split at h <;> cases h
      rfl

/-! ### Scans -/

private theorem pos_of_scan (h : text.foldlM step s = .ok r) : r.pos = s.pos + text.length := by
  induction text generalizing s with
  | nil =>
    cases h
    rfl
  | cons c text ih =>
    rw [List.foldlM_cons, bind_eq_ok_iff] at h
    obtain ⟨s', hs', hr⟩ := h
    have hnext := (step_keeps hs').1
    have hrest := ih hr
    rw [List.length_cons]
    omega

/-- The scan of a text that goes wrong goes wrong at one of its characters. -/
private theorem exists_step_error (h : text.foldlM step s = .error e) :
    ∃ front c rest r, text = front ++ c :: rest ∧ front.foldlM step s = .ok r ∧ r.step c = .error e := by
  induction text generalizing s with
  | nil => cases h
  | cons c text ih =>
    cases hs : s.step c with
    | error e' =>
      rw [scan_cons_error hs] at h
      cases h
      exact ⟨[], c, text, s, rfl, rfl, hs⟩
    | ok s' =>
      rw [List.foldlM_cons, hs] at h
      obtain ⟨front, d, rest, r, rfl, hfront, hd⟩ := ih h
      refine ⟨c :: front, d, rest, r, rfl, ?_, hd⟩
      rw [List.foldlM_cons, hs]
      exact hfront

/-! ### Completion -/

/-- If there is an item on the current level, all groups can be closed. -/
private theorem feedAll_right (hs : s.level.items ≠ []) :
    ∃ level, s.feedAll (List.replicate s.outer.length .right) = .ok { s with level, outer := [] } ∧
      level.items ≠ [] := by
  obtain ⟨pos, escaped, level, outer⟩ := s
  induction outer generalizing level with
  | nil => exact ⟨level, rfl, hs⟩
  | cons around outer ih =>
    have hpattern : level.pattern? = some (Level.joined level.branches (.seq level.items.reverse)) :=
      Level.pattern?_of_items hs
    have hfeed : feed ⟨pos, escaped, level, around :: outer⟩ .right =
        .ok ⟨pos, escaped, around.push (Level.joined level.branches (.seq level.items.reverse)), outer⟩ := by
      simp only [feed]
      rw [hpattern]
    obtain ⟨last, hall, hlast⟩ := ih (around.push _) (List.cons_ne_nil _ _)
    refine ⟨last, ?_, hlast⟩
    exact (feedAll_cons_ok hfeed _).trans hall

/-- An operator for the backslash that waits for one, an item, and a parenthesis for every open group. -/
def completion (s : Scanner) : List Char :=
  (if s.escaped then ['\\'] else []) ++ 'a' :: List.replicate s.outer.length ')'

private theorem spellsAll_replicate (n : Nat) : SpellsAll (List.replicate n ')') (List.replicate n .right) := by
  induction n with
  | zero => exact .nil
  | succ n ih => exact .cons (.plain (by decide)) ih

private theorem scan_completion_of_plain (hs : s.escaped = false) :
    ∃ r p, s.completion.foldlM step s = .ok r ∧ r.finish = .ok p := by
  have hitem : s.feed (.ofChar 'a') = .ok { s with level := s.level.push (.char "a") } := rfl
  obtain ⟨level, hright, hlevel⟩ := feedAll_right (s := { s with level := s.level.push (.char "a") })
    (List.cons_ne_nil _ _)
  have hspells : SpellsAll ('a' :: List.replicate s.outer.length ')')
      (.ofChar 'a' :: List.replicate s.outer.length .right) :=
    .cons (.plain (by decide)) (spellsAll_replicate _)
  have hscan := scan_of_feedAll hspells hs ((feedAll_cons_ok hitem _).trans hright)
  have hcompletion : s.completion = 'a' :: List.replicate s.outer.length ')' := by
    rw [completion, hs]
    rfl
  rw [hcompletion]
  exact ⟨_, _, hscan, finish_eq_ok_iff.2 ⟨hs, rfl, Level.pattern?_of_items hlevel⟩⟩

/-- Every state of the scanner is completed to that behind a regular expression. -/
theorem scan_completion (s : Scanner) : ∃ r p, s.completion.foldlM step s = .ok r ∧ r.finish = .ok p := by
  cases hs : s.escaped with
  | false => exact scan_completion_of_plain hs
  | true =>
    -- the backslash is an ordinary character, and the rest is completed as before
    let s' : Scanner := { s with pos := s.pos + 1, escaped := false, level := s.level.push (.char "\\") }
    have hstep : s.step '\\' = .ok s' := by
      rw [step, if_pos hs]
      rfl
    have hcompletion : s.completion = '\\' :: s'.completion := by
      rw [completion, completion, hs]
      rfl
    rw [hcompletion, List.foldlM_cons, hstep]
    exact scan_completion_of_plain (s := s') rfl

/-! ### The end of a scan -/

private theorem escaped_of_scan (hw : SpellsAll text w) (hs : s.escaped = false) (h : text.foldlM step s = .ok r) :
    r.escaped = false := by
  induction hw generalizing s with
  | nil =>
    cases h
    exact hs
  | @cons cs _ _ _ ht _ ih =>
    rw [scan_of_spells ht hs, bind_eq_ok_iff] at h
    obtain ⟨s', hfeed, hrest⟩ := h
    have hs' : (s'.moveTo (s.pos + cs.length)).escaped = false := (feed_keeps hfeed).2.trans hs
    exact ih hs' hrest

/-- The scanner waits for an operator exactly behind a backslash that has none. -/
private theorem escaped_iff_dangles (h : text.foldlM step {} = .ok r) : r.escaped = true ↔ Dangles text := by
  constructor
  · intro hr
    rcases List.eq_nil_or_concat text with rfl | ⟨front, c, rfl⟩
    · cases h
      cases hr
    · rw [List.concat_eq_append] at h ⊢
      rw [List.foldlM_append, bind_eq_ok_iff] at h
      obtain ⟨s, hfront, hc⟩ := h
      rw [List.foldlM_cons, bind_eq_ok_iff] at hc
      obtain ⟨r', hstep, hr'⟩ := hc
      cases hr'
      obtain ⟨hs, rfl⟩ := (step_keeps hstep).2.1 hr
      obtain ⟨w, hw, -⟩ := feedAll_of_scan rfl hs hfront
      exact ⟨front, w, rfl, Token.spellsAll_iff.1 hw⟩
  · rintro ⟨front, w, rfl, hw⟩
    rw [List.foldlM_append, bind_eq_ok_iff] at h
    obtain ⟨s, hfront, hc⟩ := h
    rw [List.foldlM_cons, bind_eq_ok_iff] at hc
    obtain ⟨r', hstep, hr'⟩ := hc
    cases hr'
    have hs := escaped_of_scan (Token.spellsAll_iff.2 hw) rfl hfront
    exact (step_keeps hstep).2.2 ⟨hs, rfl⟩

private theorem length_outer_of_feed {t : Token} (h : s.feed t = .ok r) :
    r.outer.length + [t].countP Token.isRight = s.outer.length + [t].countP Token.isLeft := by
  cases t with
  | atom p | left =>
    cases h
    rfl
  | quantifier q | bar =>
    simp only [feed] at h
    split at h <;> cases h
    rfl
  | right =>
    simp only [feed] at h
    split at h
    · cases h
    · rename_i houter
      cases h
      rw [houter]
      rfl

/-- The open groups are those that have been opened and not closed. -/
private theorem length_outer_of_feedAll (h : s.feedAll w = .ok r) :
    r.outer.length + w.countP Token.isRight = s.outer.length + w.countP Token.isLeft := by
  induction w generalizing s with
  | nil =>
    cases h
    rfl
  | cons t w ih =>
    obtain ⟨s', hfeed, hrest⟩ := feedAll_cons.1 h
    have hhead := length_outer_of_feed hfeed
    have htail := ih hrest
    rw [← List.singleton_append, List.countP_append, List.countP_append]
    omega

private theorem outer_ne_nil_iff (h : text.foldlM step {} = .ok r) (hr : r.escaped = false) :
    r.outer ≠ [] ↔ LeavesOpen text := by
  obtain ⟨w, hw, hall⟩ := feedAll_of_scan rfl hr h
  have htokens := Token.spellsAll_iff.1 hw
  have hlength : r.outer.length + w.countP Token.isRight = w.countP Token.isLeft := by
    have := length_outer_of_feedAll hall
    simpa [moveTo] using this
  have hcount : r.outer ≠ [] ↔ w.countP Token.isRight < w.countP Token.isLeft := by
    rw [← List.length_pos_iff]
    omega
  constructor
  · intro hopen
    exact ⟨w, htokens, hcount.1 hopen⟩
  · rintro ⟨w', hw', hopen⟩
    rw [htokens] at hw'
    cases hw'
    exact hcount.2 hopen

end Scanner

/-! ### Viable texts -/

section Viable

open Scanner

variable {text rest : List Char}

private theorem Viable.of_append (h : Viable (text ++ rest)) : Viable text := by
  obtain ⟨more, p, hp⟩ := h
  refine ⟨rest ++ more, p, ?_⟩
  rwa [← List.append_assoc]

/-- A text is viable exactly if the scanner has no error in it. -/
private theorem viable_iff : Viable text ↔ ∃ r, text.foldlM step {} = .ok r := by
  constructor
  · rintro ⟨rest, p, hp⟩
    rw [Pattern.parse, String.toList_ofList, List.foldlM_append] at hp
    obtain ⟨r, hr, -⟩ := bind_eq_ok_iff.1 hp
    obtain ⟨s, hs, -⟩ := bind_eq_ok_iff.1 hr
    exact ⟨s, hs⟩
  · rintro ⟨s, hs⟩
    obtain ⟨r, p, hr, hp⟩ := s.scan_completion
    refine ⟨s.completion, p, ?_⟩
    rw [Pattern.parse, String.toList_ofList, bind_eq_ok_iff]
    exact ⟨r, (scan_append_ok hs _).trans hr, hp⟩

private theorem viable_nil : Viable [] :=
  viable_iff.2 ⟨{}, rfl⟩

private theorem viable_of_take (h : ∀ n < text.length, Viable (text.take (n + 1))) : Viable text := by
  rcases Nat.eq_zero_or_pos text.length with hzero | hpos
  · rw [List.length_eq_zero_iff.1 hzero]
    exact viable_nil
  · have hlast := h (text.length - 1) (by omega)
    rwa [Nat.sub_add_cancel hpos, List.take_length] at hlast

/-- A text in front of one of whose characters the scanner has no error, and at which it has one. -/
def BreaksAt (text : List Char) (n : Nat) (e : ParseError) : Prop :=
  ∃ c r, text[n]? = some c ∧ (text.take n).foldlM step {} = .ok r ∧ r.step c = .error e

private theorem BreaksAt.scan {n : Nat} {e : ParseError} (h : BreaksAt text n e) (rest : List Char) :
    (text.take (n + 1) ++ rest).foldlM step {} = .error e := by
  obtain ⟨c, r, hc, hr, he⟩ := h
  rw [List.take_add_one, hc, Option.toList_some, List.append_assoc, scan_append_ok hr]
  exact scan_cons_error he rest

private theorem BreaksAt.parse {n : Nat} {e : ParseError} (h : BreaksAt text n e) (rest : List Char) :
    Pattern.parse (String.ofList (text.take (n + 1) ++ rest)) = .error e := by
  rw [Pattern.parse, String.toList_ofList, h.scan rest]
  rfl

private theorem BreaksAt.position? {n : Nat} {e : ParseError} (h : BreaksAt text n e) :
    e.position? = some n ∧ ∀ m c?, e = .invalidEscape m c? → m = n ∧ c? = text[n]? := by
  obtain ⟨c, r, hc, hr, he⟩ := h
  have hlt : n < text.length := (List.getElem?_eq_some_iff.1 hc).1
  have hpos : r.pos = n := by
    have := pos_of_scan hr
    simp only [List.length_take] at this
    omega
  rw [hc, ← hpos]
  exact step_eq_error he

private theorem BreaksAt.isLeast {n : Nat} {e : ParseError} (h : BreaksAt text n e) :
    IsLeast {n | n < text.length ∧ ¬Viable (text.take (n + 1))} n := by
  constructor
  · constructor
    · obtain ⟨c, r, hc, -⟩ := h
      exact (List.getElem?_eq_some_iff.1 hc).1
    · rw [viable_iff]
      rintro ⟨r, hr⟩
      have hscan := h.scan []
      rw [List.append_nil, hr] at hscan
      cases hscan
  · rintro m ⟨-, hm⟩
    by_contra hlt
    obtain ⟨c, r, -, hr, -⟩ := h
    -- the longer prefix is viable
    have hviable : Viable (text.take n) := viable_iff.2 ⟨r, hr⟩
    have hsplit := List.take_append_drop (m + 1) (text.take n)
    rw [List.take_take, Nat.min_eq_left (by omega)] at hsplit
    rw [← hsplit] at hviable
    exact hm hviable.of_append

/-- At the first position at which the text is not viable any more there is an error. -/
private theorem exists_breaksAt {n : Nat} (h : IsLeast {n | n < text.length ∧ ¬Viable (text.take (n + 1))} n) :
    ∃ e, BreaksAt text n e := by
  obtain ⟨⟨hlt, hn⟩, hleast⟩ := h
  have hbefore : Viable (text.take n) := by
    cases n with
    | zero => exact viable_nil
    | succ m =>
      by_contra hm
      have := hleast ⟨by omega, hm⟩
      omega
  obtain ⟨r, hr⟩ := viable_iff.1 hbefore
  cases he : r.step text[n] with
  | error e => exact ⟨e, text[n], r, List.getElem?_eq_getElem hlt, hr, he⟩
  | ok s =>
    refine absurd (viable_iff.2 ⟨s, ?_⟩) hn
    rw [List.take_add_one, List.getElem?_eq_getElem hlt, Option.toList_some, scan_append_ok hr, List.foldlM_cons, he]
    rfl

end Viable

/-! ### The errors of the parser -/

namespace Pattern

open Scanner

variable {regex : String} {n : Nat} {e : ParseError}

/-- An error with a position is one that the scanner has there. -/
private theorem parse_error_iff :
    (parse regex = .error e ∧ e.position? = some n) ↔ BreaksAt regex.toList n e := by
  constructor
  · rintro ⟨he, hn⟩
    cases hscan : regex.toList.foldlM step {} with
    | ok r =>
      rw [parse, hscan] at he
      rw [position?_of_finish he] at hn
      cases hn
    | error e' =>
      have he' : e' = e := by
        rw [parse, hscan] at he
        cases he
        rfl
      subst he'
      obtain ⟨front, c, rest, r, htext, hr, hstep⟩ := exists_step_error hscan
      have hfront : n = front.length := by
        have hpos := (step_eq_error hstep).1
        rw [hn, pos_of_scan hr] at hpos
        cases hpos
        exact Nat.zero_add _
      subst hfront
      rw [htext]
      exact ⟨c, r, by simp, by rw [List.take_left' rfl]; exact hr, hstep⟩
  · intro h
    refine ⟨?_, h.position?.1⟩
    have hparse := h.parse (regex.toList.drop (n + 1))
    rwa [List.take_append_drop, String.ofList_toList] at hparse

/-- What is wrong with a viable text is wrong at its end. -/
private theorem parse_of_viable (h : Viable regex.toList) :
    (Dangles regex.toList → parse regex = .error (.invalidEscape regex.toList.length none)) ∧
    (¬Dangles regex.toList → LeavesOpen regex.toList → parse regex = .error .unclosedGroup) ∧
    (¬Dangles regex.toList → ¬LeavesOpen regex.toList →
      (∃ p, parse regex = .ok p) ∨ parse regex = .error .empty) := by
  obtain ⟨r, hr⟩ := viable_iff.1 h
  have hparse : parse regex = r.finish := by
    rw [parse, hr]
    rfl
  have hpos : r.pos = regex.toList.length := (pos_of_scan hr).trans (Nat.zero_add _)
  rw [← escaped_iff_dangles hr, hparse, ← hpos]
  refine ⟨fun hdangles => ?_, fun hdangles hopen => ?_, fun hdangles hopen => ?_⟩
  · rw [finish, if_pos hdangles]
  · rw [← outer_ne_nil_iff hr (Bool.eq_false_iff.2 hdangles)] at hopen
    rw [finish, if_neg hdangles, if_pos (by simpa using hopen)]
  · rw [← outer_ne_nil_iff hr (Bool.eq_false_iff.2 hdangles)] at hopen
    rw [finish, if_neg hdangles, if_neg (by simpa using hopen)]
    cases r.level.pattern? with
    | none => exact .inr rfl
    | some p => exact .inl ⟨p, rfl⟩

/-- An error with a position is reported at the first character behind which no regular expression can be made of the
text any more, and whatever follows.  If there is no such character, the text can be completed to a regular expression;
it is one itself, or it ends behind a dangling backslash, within a group or without an item. -/
theorem parse_earliest (regex : String) :
    (∀ n, (∃ e, parse regex = .error e ∧ e.position? = some n) ↔
      IsLeast {n | n < regex.length ∧ ¬Viable (regex.toList.take (n + 1))} n) ∧
    (∀ n e, parse regex = .error e → e.position? = some n →
      (∀ rest, parse (String.ofList (regex.toList.take (n + 1) ++ rest)) = .error e) ∧
      ∀ m c?, e = .invalidEscape m c? → m = n ∧ c? = regex.toList[n]?) ∧
    ((∀ n < regex.length, Viable (regex.toList.take (n + 1))) →
      Viable regex.toList ∧
      (Dangles regex.toList → parse regex = .error (.invalidEscape regex.length none)) ∧
      (¬Dangles regex.toList → LeavesOpen regex.toList → parse regex = .error .unclosedGroup) ∧
      (¬Dangles regex.toList → ¬LeavesOpen regex.toList →
        (∃ p, parse regex = .ok p) ∨ parse regex = .error .empty)) := by
  rw [← String.length_toList]
  refine ⟨fun n => ?_, fun n e he hn => ?_, fun hall => ?_⟩
  · constructor
    · rintro ⟨e, he⟩
      exact (parse_error_iff.1 he).isLeast
    · intro h
      obtain ⟨e, he⟩ := exists_breaksAt h
      exact ⟨e, parse_error_iff.2 he⟩
  · have hbreaks := parse_error_iff.1 ⟨he, hn⟩
    exact ⟨hbreaks.parse, hbreaks.position?.2⟩
  · have hviable := viable_of_take hall
    exact ⟨hviable, parse_of_viable hviable⟩

/-- A quantifier behind a bar cannot be mended, a dangling backslash in a group can. -/
theorem parse_mended :
    (∀ rest, parse (String.ofList (['a', '|', '*'] ++ rest)) = .error (.nothingBefore 2)) ∧
    Viable "(a|\\".toList ∧ parse "(a|\\" = .error (.invalidEscape 4 none) := by
  have hstar : parse "a|*)" = .error (.nothingBefore 2) := by rfl
  obtain ⟨-, hmended, -⟩ := parse_earliest "a|*)"
  obtain ⟨hrest, -⟩ := hmended 2 (.nothingBefore 2) hstar rfl
  have hdangles : Dangles "(a|\\".toList := ⟨['(', 'a', '|'], _, rfl, rfl⟩
  have hwhole : Viable "(a|\\".toList := ⟨['*', ')'], .seq [.alt (.seq [.char "a"]) (.seq [.char "*"])], by rfl⟩
  have hall : ∀ n < "(a|\\".length, Viable ("(a|\\".toList.take (n + 1)) := by
    intro n _
    rw [← List.take_append_drop (n + 1) "(a|\\".toList] at hwhole
    exact hwhole.of_append
  obtain ⟨hviable, herror, -⟩ := (parse_earliest "(a|\\").2.2 hall
  exact ⟨hrest, hviable, herror hdangles⟩

end Pattern

end PatternMachine
