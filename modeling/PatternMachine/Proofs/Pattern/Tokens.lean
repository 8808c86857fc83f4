import PatternMachine.Pattern.Grammar

/-!
# Texts and their tokens

A token is spelled by one character, or by an operator behind a backslash (`Token.Spells`), and a text has tokens if it
is made of such pieces (`Token.spellsAll_iff`).  What the scanner does with a piece, it does with its token, but for the
position that it counts (`Scanner.scan_of_spells`).  So a text is read exactly if it has tokens and these can be read
one after the other (`Scanner.scan_of_feedAll`, `Scanner.feedAll_of_scan`).
-/

namespace PatternMachine

theorem bind_eq_ok_iff {ε α β : Type} {x : Except ε α} {f : α → Except ε β} {b : β} :
    x >>= f = .ok b ↔ ∃ a, x = .ok a ∧ f a = .ok b := by
  cases x with
  | error e =>
    constructor
    · intro h
      cases h
    · rintro ⟨a, h, -⟩
      cases h
  | ok a =>
    constructor
    · intro h
      exact ⟨a, rfl, h⟩
    · rintro ⟨a', h, hb⟩
      cases h
      exact hb

namespace Token

variable {t : Token} {w v : List Token} {cs text rest : List Char}

/-- The characters are one way to write the token. -/
inductive Spells : List Char → Token → Prop where
  | plain {c : Char} : c ≠ '\\' → Spells [c] (.ofChar c)
  | escaped {c : Char} : isEscapable c → Spells ['\\', c] (.literal c)

/-- The text is made of ways to write the tokens. -/
inductive SpellsAll : List Char → List Token → Prop where
  | nil : SpellsAll [] []
  | cons {cs rest : List Char} {t : Token} {w : List Token} :
    Spells cs t → SpellsAll rest w → SpellsAll (cs ++ rest) (t :: w)

theorem SpellsAll.append (h : SpellsAll text w) (h' : SpellsAll rest v) : SpellsAll (text ++ rest) (w ++ v) := by
  induction h with
  | nil => exact h'
  | cons ht _ ih =>
    rw [List.append_assoc, List.cons_append]
    exact .cons ht ih

private theorem ofText?_of_spells (h : Spells cs t) (rest : List Char) :
    ofText? (cs ++ rest) = (ofText? rest).map (t :: ·) := by
  cases h with
  | plain hc =>
    rw [List.singleton_append, ofText?.eq_def]
    split <;> simp_all
  | escaped hc => simp only [List.cons_append, List.nil_append, ofText?, hc, ↓reduceIte]

private theorem ne_backslash {c : Char} (hlast : c = '\\' → rest = [] → False)
    (hinner : ∀ d rest', c = '\\' → rest = d :: rest' → False) : c ≠ '\\' := by
  intro hc
  cases rest with
  | nil => exact hlast hc rfl
  | cons d rest => exact hinner d rest hc rfl

theorem spellsAll_iff : SpellsAll text w ↔ ofText? text = some w := by
  constructor
  · intro h
    induction h with
    | nil => rfl
    | cons ht _ ih => rw [ofText?_of_spells ht, ih, Option.map_some]
  · intro h
    fun_induction ofText? text generalizing w with
    | case1 =>
      cases h
      exact .nil
    | case2 | case4 => cases h
    | case3 c rest hc ih =>
      obtain ⟨v, hv, rfl⟩ := Option.map_eq_some_iff.1 h
      exact .cons (.escaped hc) (ih hv)
    | case5 c rest hlast hinner ih =>
      have hc := ne_backslash hlast hinner
      obtain ⟨v, hv, rfl⟩ := Option.map_eq_some_iff.1 h
      exact .cons (.plain hc) (ih hv)

end Token

namespace Scanner

open Token (Spells SpellsAll)

variable {s r : Scanner} {t : Token} {w : List Token} {cs text rest : List Char}

/-- The scanner at another position. -/
def moveTo (s : Scanner) (pos : Nat) : Scanner :=
  { s with pos }

/-- What the scanner makes of tokens, one after the other. -/
def feedAll (s : Scanner) (w : List Token) : Except ParseError Scanner :=
  w.foldlM feed s

/-! ### Positions -/

/-- A token that can be read is read in the same way wherever it stands. -/
private theorem feed_moveTo (h : s.feed t = .ok r) (pos : Nat) : (s.moveTo pos).feed t = .ok (r.moveTo pos) := by
  cases t with
  | atom p | left =>
    cases h
    rfl
  | quantifier q | right =>
    simp only [feed, moveTo] at h ⊢
    split at h
    · cases h
    · cases h
      rfl
  | bar =>
    simp only [feed, moveTo] at h ⊢
    split at h
    · cases h
    · rename_i hitems
      cases h
      exact if_neg hitems

theorem feed_keeps (h : s.feed t = .ok r) : r.pos = s.pos ∧ r.escaped = s.escaped := by
  cases t with
  | atom p | left =>
    cases h
    exact ⟨rfl, rfl⟩
  | quantifier q | right | bar =>
    simp only [feed] at h
    split at h
    · cases h
    · cases h
      exact ⟨rfl, rfl⟩

/-- An error shows at the position of the scanner. -/
theorem feed_eq_error {e : ParseError} (h : s.feed t = .error e) :
    e = .unopenedGroup s.pos ∨ e = .nothingBefore s.pos := by
  cases t with
  | atom p | left => cases h
  | quantifier q | bar =>
    simp only [feed] at h
    split at h <;> cases h
    exact .inr rfl
  | right =>
    simp only [feed] at h
    split at h <;> cases h
    exact .inl rfl

/-- At a character the scanner misses an operator, puts a backslash aside, or has the whole of a token. -/
theorem step_cases (s : Scanner) (c : Char) :
    (s.escaped = true ∧ s.step c = .error (.invalidEscape s.pos (some c))) ∨
    (s.escaped = false ∧ c = '\\' ∧ s.step c = .ok { s with pos := s.pos + 1, escaped := true }) ∨
    (¬(s.escaped = false ∧ c = '\\') ∧
      ∃ t, s.step c = (feed { s with escaped := false } t).map (·.moveTo (s.pos + 1))) := by
  obtain ⟨pos, escaped, level, outer⟩ := s
  cases escaped with
  | true =>
    by_cases hc : isEscapable c
    · refine .inr (.inr ⟨nofun, .literal c, ?_⟩)
      simp only [step, hc, ↓reduceIte]
      rfl
    · refine .inl ⟨rfl, ?_⟩
      simp only [step, hc, ↓reduceIte]
      rfl
  | false =>
    by_cases hc : c = '\\'
    · subst hc
      exact .inr (.inl ⟨rfl, rfl, rfl⟩)
    · refine .inr (.inr ⟨fun h => hc h.2, .ofChar c, ?_⟩)
      simp only [step, hc, Bool.false_eq_true, ↓reduceIte]
      rfl

/-- What is the same, but for a map of the states and of the errors, at every character is the same for every text. -/
theorem scan_map {f : Scanner → Scanner} {g : ParseError → ParseError} {h : Char → Char}
    (hstep : ∀ s c, (f s).step (h c) = ((s.step c).map f).mapError g) (text : List Char) (s : Scanner) :
    (text.map h).foldlM step (f s) = ((text.foldlM step s).map f).mapError g := by
  induction text generalizing s with
  | nil => rfl
  | cons c text ih =>
    rw [List.map_cons, List.foldlM_cons, List.foldlM_cons, hstep]
    cases s.step c with
    | error e => rfl
    | ok r => exact ih r

theorem feedAll_cons : s.feedAll (t :: w) = .ok r ↔ ∃ s', s.feed t = .ok s' ∧ s'.feedAll w = .ok r := by
  rw [feedAll, List.foldlM_cons, bind_eq_ok_iff]
  rfl

private theorem feedAll_moveTo (h : s.feedAll w = .ok r) (pos : Nat) :
    (s.moveTo pos).feedAll w = .ok (r.moveTo pos) := by
  induction w generalizing s with
  | nil =>
    cases h
    rfl
  | cons t w ih =>
    obtain ⟨s', ht, hw⟩ := feedAll_cons.1 h
    exact feedAll_cons.2 ⟨s'.moveTo pos, feed_moveTo ht pos, ih hw⟩

/-! ### Texts -/

theorem scan_of_spells (ht : Spells cs t) (hs : s.escaped = false) (rest : List Char) :
    (cs ++ rest).foldlM step s = s.feed t >>= fun r => rest.foldlM step (r.moveTo (s.pos + cs.length)) := by
  obtain ⟨pos, escaped, level, outer⟩ := s
  cases hs
  cases ht with
  | @plain c hc =>
    simp only [List.singleton_append, List.foldlM_cons, step, Bool.false_eq_true, ↓reduceIte, hc]
    cases feed ⟨pos, false, level, outer⟩ (.ofChar c) <;> rfl
  | escaped hc =>
    simp only [List.cons_append, List.nil_append, List.foldlM_cons, step, Bool.false_eq_true, ↓reduceIte, hc]
    rfl

/-- What can be read token by token can be read as a text. -/
theorem scan_of_feedAll (hw : SpellsAll text w) (hs : s.escaped = false) (h : s.feedAll w = .ok r) :
    text.foldlM step s = .ok (r.moveTo (s.pos + text.length)) := by
  induction hw generalizing s r with
  | nil =>
    cases h
    rfl
  | @cons cs rest t w ht _ ih =>
    obtain ⟨s', hfeed, hrest⟩ := feedAll_cons.1 h
    have hs' : (s'.moveTo (s.pos + cs.length)).escaped = false := (feed_keeps hfeed).2.trans hs
    have hscan := ih hs' (feedAll_moveTo hrest _)
    rw [scan_of_spells ht hs, hfeed, List.length_append, ← Nat.add_assoc]
    exact hscan

private theorem feedAll_of_spells (ht : Spells cs t) (hs : s.escaped = false)
    (h : (cs ++ rest).foldlM step s = .ok r)
    (ih : ∀ s', s'.escaped = false → rest.foldlM step s' = .ok r →
      ∃ w, SpellsAll rest w ∧ s'.feedAll w = .ok (r.moveTo s'.pos)) :
    ∃ w, SpellsAll (cs ++ rest) w ∧ s.feedAll w = .ok (r.moveTo s.pos) := by
  rw [scan_of_spells ht hs, bind_eq_ok_iff] at h
  obtain ⟨s', hfeed, hrest⟩ := h
  obtain ⟨hpos, hescaped⟩ := feed_keeps hfeed
  obtain ⟨w, hw, hall⟩ := ih (s'.moveTo (s.pos + cs.length)) (hescaped.trans hs) hrest
  refine ⟨t :: w, .cons ht hw, feedAll_cons.2 ⟨s', hfeed, ?_⟩⟩
  have := feedAll_moveTo hall s.pos
  rwa [show (s'.moveTo (s.pos + cs.length)).moveTo s.pos = s' by rw [← hpos]; rfl] at this

/-- What can be read as a text can be read token by token. -/
theorem feedAll_of_scan (hs : s.escaped = false) (hr : r.escaped = false) (h : text.foldlM step s = .ok r) :
    ∃ w, SpellsAll text w ∧ s.feedAll w = .ok (r.moveTo s.pos) := by
  fun_induction Token.ofText? text generalizing s with
  | case1 =>
    cases h
    exact ⟨[], .nil, rfl⟩
  | case2 =>
    -- the backslash would still wait for its operator
    simp only [List.foldlM_cons, step, hs] at h
    cases h
    cases hr
  | case3 c rest hc ih => exact feedAll_of_spells (.escaped hc) hs h fun s' hs' => ih hs'
  | case4 c rest hc =>
    simp only [List.foldlM_cons, step, hs, hc] at h
    cases h
  | case5 c rest hlast hinner ih =>
    have hc := Token.ne_backslash hlast hinner
    exact feedAll_of_spells (.plain hc) hs h fun s' hs' => ih hs'

end Scanner

end PatternMachine
