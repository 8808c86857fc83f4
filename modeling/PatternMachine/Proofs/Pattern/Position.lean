import PatternMachine.Pattern.Language
import PatternMachine.Proofs.Pattern.Composition

/-!
# Where a text stands in its line

A program sees the rest of a line and the position at which this rest begins.  A pattern matches the rest from its
beginning exactly if it matches the whole line from that position (`Pattern.matches_append`): all that is read is read
as many positions further (`Shifts`).  What the position is makes no difference to a pattern that asks nowhere for the
start of the line (`Pattern.Floats`), and the patterns of regular expressions without a circumflex are such patterns
(`Pattern.floats_of_parse`).
-/

namespace PatternMachine

/-! ### Positions further on -/

/-- From a position that is `n` further, the first relation leads to the positions that are `n` further than those to
which the second one leads. -/
def Shifts (n : Nat) (r r' : Nat → Nat → Prop) : Prop :=
  ∀ i k, r (n + i) k ↔ ∃ j, k = n + j ∧ r' i j

namespace Shifts

variable {n : Nat} {r r' s s' : Nat → Nat → Prop} {a a' : Nat → Prop}

/-- What holds at a position to which the relation leads. -/
private theorem exists_and (h : Shifts n r r') (ha : ∀ j, a (n + j) ↔ a' j) (i : Nat) :
    (∃ k, r (n + i) k ∧ a k) ↔ ∃ j, r' i j ∧ a' j := by
  constructor
  · rintro ⟨k, hk, hak⟩
    obtain ⟨j, rfl, hj⟩ := (h i k).1 hk
    exact ⟨j, hj, (ha j).1 hak⟩
  · rintro ⟨j, hj, haj⟩
    exact ⟨n + j, (h i _).2 ⟨j, rfl, hj⟩, (ha j).2 haj⟩

/-- One relation after the other. -/
private theorem comp (h : Shifts n r r') (hs : Shifts n s s') :
    Shifts n (fun i k => ∃ j, r i j ∧ s j k) (fun i k => ∃ j, r' i j ∧ s' j k) := by
  intro i k
  refine (h.exists_and (fun j => hs j k) i).trans ?_
  constructor
  · rintro ⟨j, hj, l, rfl, hl⟩
    exact ⟨l, rfl, j, hj, hl⟩
  · rintro ⟨l, rfl, j, hj, hl⟩
    exact ⟨j, hj, l, rfl, hl⟩

private theorem rounds (h : Shifts n r r') : Shifts n (Rounds r) (Rounds r') := by
  intro i k
  constructor
  · intro hk
    generalize hx : n + i = x at hk
    induction hk generalizing i with
    | none => exact ⟨i, hx.symm, .none i⟩
    | more hr _ ih =>
      subst hx
      obtain ⟨j, rfl, hj⟩ := (h i _).1 hr
      obtain ⟨l, rfl, hl⟩ := ih j rfl
      exact ⟨l, rfl, .more hj hl⟩
  · rintro ⟨j, rfl, hj⟩
    induction hj with
    | none => exact .none _
    | more hr _ ih => exact .more ((h _ _).2 ⟨_, rfl, hr⟩) ih

end Shifts

namespace Pattern

/-! ### The rest of a text -/

section Rest

variable (front rest : List Char) (start : Int)

private theorem getElem?_front_rest (i : Nat) :
    (front ++ rest).toArray[front.length + i]? = rest.toArray[i]? := by
  rw [List.getElem?_toArray, List.getElem?_toArray, List.getElem?_append_right (Nat.le_add_right ..),
    Nat.add_sub_cancel_left]

mutual

/-- What can be read in a text can be read as many positions further behind other characters. -/
private theorem shifts_runs : ∀ p : Pattern,
    Shifts front.length (Runs (front ++ rest).toArray start p) (Runs rest.toArray start p)
  | char text => by
    intro i k
    simp only [Runs, getElem?_front_rest]
    constructor
    · rintro ⟨hc, rfl⟩
      exact ⟨i + 1, Nat.add_assoc .., hc, rfl⟩
    · rintro ⟨j, rfl, hc, rfl⟩
      exact ⟨hc, (Nat.add_assoc ..).symm⟩
  | any => by
    intro i k
    simp only [Runs, List.size_toArray, List.length_append]
    constructor
    · rintro ⟨hi, rfl⟩
      exact ⟨i + 1, by omega, by omega, rfl⟩
    · rintro ⟨j, rfl, hi, rfl⟩
      exact ⟨by omega, by omega⟩
  | lineStart => by
    intro i k
    simp only [Runs]
    constructor
    · rintro ⟨hstart, rfl⟩
      exact ⟨i, rfl, hstart, rfl⟩
    · rintro ⟨j, rfl, hstart, rfl⟩
      exact ⟨hstart, rfl⟩
  | lineEnd | hole => by simp [Shifts, Runs]
  | plus body => by
    have ih := shifts_runs body
    exact ih.comp ih.rounds
  | star body => (shifts_runs body).rounds
  | opt body => by
    intro i k
    simp only [Runs, shifts_runs body i k]
    constructor
    · rintro (rfl | ⟨j, rfl, hj⟩)
      · exact ⟨i, rfl, .inl rfl⟩
      · exact ⟨j, rfl, .inr hj⟩
    · rintro ⟨j, rfl, rfl | hj⟩
      · exact .inl rfl
      · exact .inr ⟨j, rfl, hj⟩
  | alt first second => by
    intro i k
    simp only [Runs, shifts_runs first i k, shifts_runs second i k, and_or_left, exists_or]
  | seq items => shifts_runsAll items

private theorem shifts_runsAll : ∀ ps : List Pattern,
    Shifts front.length (RunsAll (front ++ rest).toArray start ps) (RunsAll rest.toArray start ps)
  | [] => by
    intro i k
    simp only [RunsAll]
    exact ⟨fun h => ⟨i, h.symm, rfl⟩, fun ⟨j, hk, hj⟩ => by rw [hk, hj]⟩
  | p :: ps => (shifts_runs p).comp (shifts_runsAll ps)

end

mutual

private theorem accepts_append : ∀ (p : Pattern) (i : Nat),
    p.Accepts (front ++ rest).toArray start (front.length + i) ↔ p.Accepts rest.toArray start i
  | char _, _ | any, _ | lineStart, _ | hole, _ => Iff.rfl
  | lineEnd, i => by
    simp only [Accepts, List.size_toArray, List.length_append]
    omega
  | plus body, i | star body, i => by
    have ih := accepts_append body
    exact (shifts_runs front rest start body).rounds.exists_and ih i
  | opt body, i => accepts_append body i
  | alt first second, i => or_congr (accepts_append first i) (accepts_append second i)
  | seq items, i => acceptsAll_append items i

private theorem acceptsAll_append : ∀ (ps : List Pattern) (i : Nat),
    AcceptsAll (front ++ rest).toArray start ps (front.length + i) ↔ AcceptsAll rest.toArray start ps i
  | [], _ => Iff.rfl
  | p :: ps, i => by
    have ih := acceptsAll_append ps
    exact or_congr (accepts_append p i) ((shifts_runs front rest start p).exists_and ih i)

end

/-- A pattern matches the rest of a text exactly if it matches the text in place. -/
theorem matches_append (p : Pattern) (i : Nat) :
    p.Matches (front ++ rest).toArray start (front.length + i) ↔ p.Matches rest.toArray start i := by
  have hruns := (shifts_runs front rest start p).exists_and (a := fun _ => True) (fun _ => Iff.rfl) i
  simp only [and_true] at hruns
  exact or_congr (accepts_append front rest start p i) hruns

end Rest

theorem matches_drop (p : Pattern) {text : List Char} {k : Nat} (hk : k ≤ text.length) (start : Int) :
    p.Matches (text.drop k).toArray start 0 ↔ p.Matches text.toArray start k := by
  have h := matches_append (text.take k) (text.drop k) start p 0
  rw [List.take_append_drop, List.length_take_of_le hk, Nat.add_zero] at h
  exact h.symm

/-! ### Patterns without the start of the line -/

/-- The pattern reads the same at whatever position of its line the text begins. -/
def Floats (p : Pattern) : Prop :=
  ∀ text start start', Runs text start p = Runs text start' p ∧ Accepts text start p = Accepts text start' p

theorem Floats.matches_iff {p : Pattern} (h : p.Floats) (text : Array Char) (start start' : Int) (i : Nat) :
    p.Matches text start i ↔ p.Matches text start' i := by
  obtain ⟨hruns, haccepts⟩ := h text start start'
  rw [Matches, Matches, hruns, haccepts]

private theorem floatsAll {ps : List Pattern} (h : ∀ p ∈ ps, p.Floats) (text : Array Char) (start start' : Int) :
    RunsAll text start ps = RunsAll text start' ps ∧ AcceptsAll text start ps = AcceptsAll text start' ps := by
  induction ps with
  | nil => exact ⟨rfl, rfl⟩
  | cons p ps ih =>
    obtain ⟨hp, hps⟩ := List.forall_mem_cons.1 h
    obtain ⟨hruns, haccepts⟩ := hp text start start'
    obtain ⟨hrunsAll, hacceptsAll⟩ := ih hps
    constructor
    · funext i k
      rw [RunsAll, RunsAll, hruns, hrunsAll]
    · funext i
      rw [AcceptsAll, AcceptsAll, hruns, haccepts, hacceptsAll]

private theorem Floats.alt {p q : Pattern} (hp : p.Floats) (hq : q.Floats) : (alt p q).Floats := by
  intro text start start'
  obtain ⟨hruns, haccepts⟩ := hp text start start'
  obtain ⟨hruns', haccepts'⟩ := hq text start start'
  constructor <;> funext <;> simp only [Runs, Accepts, hruns, haccepts, hruns', haccepts']

private theorem composes_floats : Composes fun _ p => p.Floats where
  quantified q p h text start start' := by
    obtain ⟨hruns, haccepts⟩ := h text start start'
    cases q <;> constructor <;> funext <;> simp only [Quantifier.apply, Runs, Accepts, hruns, haccepts]
  seq _ _ h text start start' := by
    obtain ⟨hruns, haccepts⟩ := floatsAll h text start start'
    constructor <;> funext <;> simp only [Runs, Accepts, hruns, haccepts]
  alt _ h h' := h.alt h'

end Pattern

/-! ### Regular expressions without the start of the line -/

/-- No circumflex of the regular expression stands for the start of the line. -/
def Regex.Unanchored (regex : String) : Prop :=
  ∀ w, Token.ofText? regex.toList = some w → Token.ofChar '^' ∉ w

private theorem Token.ofChar_eq_ofChar_circumflex_iff {c : Char} : ofChar c = ofChar '^' ↔ c = '^' := by
  constructor
  · intro h
    unfold ofChar at h
    split at h <;> cases h
    rfl
  · rintro rfl
    rfl

/-- No backslash turns a circumflex into an ordinary character, so there are tokens only if each circumflex stands for
the start of the line. -/
private theorem Token.mem_iff_of_spellsAll {text : List Char} {w : List Token} (h : SpellsAll text w) :
    ofChar '^' ∈ w ↔ '^' ∈ text := by
  induction h with
  | nil => simp
  | @cons cs rest t w ht _ ih =>
    have hhead : ofChar '^' = t ↔ '^' ∈ cs := by
      cases ht with
      | plain hc => rw [eq_comm, ofChar_eq_ofChar_circumflex_iff, List.mem_singleton, eq_comm]
      | @escaped c hc =>
        have hne : c ≠ '^' := by
          rintro rfl
          exact absurd hc (by decide)
        simp [ofChar, literal, hne.symm]
    rw [List.mem_cons, List.mem_append, hhead, ih]

theorem Regex.unanchored_of_not_mem {regex : String} (h : '^' ∉ regex.toList) : Unanchored regex :=
  fun _ hw hmem => h ((Token.mem_iff_of_spellsAll (Token.spellsAll_iff.2 hw)).1 hmem)

theorem Regex.Unanchored.not_mem {regex : String} {p : Pattern} (hr : Unanchored regex)
    (hp : Pattern.parse regex = .ok p) : '^' ∉ regex.toList := by
  obtain ⟨w, hw, -⟩ := Pattern.parse_eq_ok_iff.1 hp
  have hnot := hr w hw
  rwa [Token.mem_iff_of_spellsAll (Token.spellsAll_iff.2 hw)] at hnot

theorem Pattern.floats_of_parse {regex : String} {p : Pattern} (h : parse regex = .ok p)
    (hr : Regex.Unanchored regex) : p.Floats := by
  refine composes_floats.parse h (fun w hw q hq => ?_) false
  cases Token.isAtom_of_mem hw hq with
  | lineStart => exact absurd hq (hr w hw)
  | char _ | any | lineEnd => exact fun _ _ _ => ⟨rfl, rfl⟩

end PatternMachine
