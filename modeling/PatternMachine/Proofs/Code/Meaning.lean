import PatternMachine.Pattern.Language
import PatternMachine.Proofs.Code.Termination

/-!
# The meaning of compiled programs

A point wins if some way from it ends where the program accepts.  From the beginning of the code of a pattern a point
wins exactly if the pattern can end the match there, or can be read up to a position from which the point behind the
code wins.  One direction is by induction on the pattern and the number of rounds (`Pattern.wins_of_runs`,
`Pattern.wins_of_accepts`), the other one by induction on the pattern and, in a loop, on the length of the way, which
gets shorter in every round, even if the round reads nothing (`Pattern.reads_of_hits`).

A run in which no error can come up ends, and since the search is complete, it answers whether the program can win
(`Machine.accepts_of_isSafe`).  Together this gives the answer of a compiled program (`Machine.accepts_eq_matches`).
-/

namespace PatternMachine

open Program (HasAt)

namespace Machine

/-! ### Ways to a point that accepts -/

/-- A way of so many steps leads from the point to one where the program accepts. -/
inductive Hits (m : Machine) (limit : Int) : Nat → Point → Prop where
  | accept {p : Point} : m.move p = .accept → Hits m limit 0 p
  | step {n : Nat} {p q : Point} : m.Leads limit p q → Hits m limit n q → Hits m limit (n + 1) p

/-- No error comes up in a run of the program: it fits, its counters are below the limit, and the line-start
instruction stands nowhere but at its beginning. -/
structure IsSafe (m : Machine) (limit : Int) : Prop where
  fits : m.program.Fits
  size_le : m.program.size ≤ limit
  text_le : m.text.size ≤ limit
  anchored : ∀ a, m.program[a]? = some .lineStart → a = 0

variable {m : Machine} {limit : Int} {p q : Point} {n a sp : Nat} {i : Instr}

private theorem IsSafe.error?_eq_none (hs : m.IsSafe limit) (h : m.program[a]? = some i) :
    m.error? limit ⟨a, sp⟩ = none := by
  have hlt := (Array.getElem?_eq_some_iff.1 h).1
  have hsize := hs.size_le
  have htext := hs.text_le
  have hrange : m.InRange ⟨a, sp⟩ := by
    simp only [InRange]
    omega
  rw [Option.eq_none_iff_forall_ne_some]
  intro e he
  cases faults_of_error? hs.fits hrange he with
  | counter hpc =>
    simp only at hpc
    omega
  | position hle hsp =>
    simp only at hle hsp
    omega
  | anchor ha hne hanchor => exact hne (hs.anchored _ hanchor)

private theorem hits_at {move : Move} (hs : m.IsSafe limit) (h : m.program[a]? = some i)
    (hm : m.move ⟨a, sp⟩ = move) :
    m.Hits limit n ⟨a, sp⟩ ↔ (n = 0 ∧ move = .accept) ∨
      ∃ k, n = k + 1 ∧ ∃ q ∈ move.targets ⟨a, sp⟩, m.Hits limit k q := by
  subst hm
  constructor
  · intro hn
    cases hn with
    | accept ha => exact .inl ⟨rfl, ha⟩
    | step hl hq => exact .inr ⟨_, rfl, _, hl.2, hq⟩
  · rintro (⟨rfl, ha⟩ | ⟨k, rfl, q, hq, hk⟩)
    · exact .accept ha
    · exact .step ⟨hs.error?_eq_none h, hq⟩ hk

private theorem hits_char {text : String} (hs : m.IsSafe limit) (h : m.program[a]? = some (.char text)) :
    m.Hits limit n ⟨a, sp⟩ ↔ ∃ k, n = k + 1 ∧ (∃ c, m.text[sp]? = some c ∧ text = String.singleton c) ∧
      m.Hits limit k ⟨(a + 1 : Nat), sp + 1⟩ := by
  have hc : (∃ c, m.text[sp]? = some c ∧ text = String.singleton c) ↔
      m.text[sp]?.map String.singleton = some text := by
    rw [Option.map_eq_some_iff]
    exact exists_congr fun c => and_congr_right fun _ => eq_comm
  rw [hc]
  by_cases hr : m.text[sp]?.map String.singleton = some text
  · rw [hits_at hs h ((move_at h).trans (if_pos hr))]
    simp [Move.targets, hr]
  · rw [hits_at hs h ((move_at h).trans (if_neg hr))]
    simp [Move.targets, hr]

private theorem hits_any (hs : m.IsSafe limit) (h : m.program[a]? = some .any) :
    m.Hits limit n ⟨a, sp⟩ ↔ ∃ k, n = k + 1 ∧ sp < m.text.size ∧ m.Hits limit k ⟨(a + 1 : Nat), sp + 1⟩ := by
  by_cases hr : sp < m.text.size
  · rw [hits_at hs h ((move_at h).trans (if_pos hr))]
    simp [Move.targets, hr]
  · rw [hits_at hs h ((move_at h).trans (if_neg hr))]
    simp [Move.targets, hr]

private theorem hits_lineStart (hs : m.IsSafe limit) (h : m.program[a]? = some .lineStart) :
    m.Hits limit n ⟨a, sp⟩ ↔ ∃ k, n = k + 1 ∧ m.start = 0 ∧ m.Hits limit k ⟨(a + 1 : Nat), sp⟩ := by
  have ha : ¬a ≠ 0 := not_not.2 (hs.anchored a h)
  have hm : m.move ⟨a, sp⟩ = if m.start ≠ 0 then .fail else .advance := (move_at h).trans (if_neg ha)
  by_cases hr : m.start = 0
  · rw [if_neg (not_not.2 hr)] at hm
    simp [hits_at hs h hm, Move.targets, hr]
  · rw [if_pos hr] at hm
    simp [hits_at hs h hm, Move.targets, hr]

private theorem hits_lineEnd (hs : m.IsSafe limit) (h : m.program[a]? = some .lineEnd) :
    m.Hits limit n ⟨a, sp⟩ ↔ n = 0 ∧ sp = m.text.size := by
  by_cases hr : sp = m.text.size
  · rw [hits_at hs h ((move_at h).trans (if_pos hr))]
    simp [Move.targets, hr]
  · rw [hits_at hs h ((move_at h).trans (if_neg hr))]
    simp [Move.targets, hr]

private theorem hits_jump {target : Int} (hs : m.IsSafe limit) (h : m.program[a]? = some (.jump target)) :
    m.Hits limit n ⟨a, sp⟩ ↔ ∃ k, n = k + 1 ∧ m.Hits limit k ⟨target, sp⟩ := by
  rw [hits_at hs h (move_at h)]
  simp [Move.targets]

private theorem hits_split {first second : Int} (hs : m.IsSafe limit) (h : m.program[a]? = some (.split first second)) :
    m.Hits limit n ⟨a, sp⟩ ↔ ∃ k, n = k + 1 ∧ (m.Hits limit k ⟨first, sp⟩ ∨ m.Hits limit k ⟨second, sp⟩) := by
  rw [hits_at hs h (move_at h)]
  simp [Move.targets]

/-- A way leads from the point to one where the program accepts. -/
def Wins (m : Machine) (limit : Int) (p : Point) : Prop :=
  ∃ n, m.Hits limit n p

theorem wins_of_reaches (h : m.Reaches limit p q) (hq : m.Wins limit q) : m.Wins limit p := by
  induction h with
  | refl => exact hq
  | tail _ hl ih => exact ih (hq.elim fun n hn => ⟨n + 1, .step hl hn⟩)

theorem Reaches.head {r : Point} (hl : m.Leads limit p q) (h : m.Reaches limit q r) : m.Reaches limit p r := by
  induction h with
  | refl => exact .tail (.refl p) hl
  | tail _ hl' ih => exact .tail ih hl'

private theorem Wins.reaches (h : m.Wins limit p) : ∃ q, m.Reaches limit p q ∧ m.move q = .accept := by
  obtain ⟨n, hn⟩ := h
  induction hn with
  | accept ha => exact ⟨_, .refl _, ha⟩
  | step hl _ ih =>
    obtain ⟨r, hr, ha⟩ := ih
    exact ⟨r, .head hl hr, ha⟩

private theorem wins_first {first second : Int} (hs : m.IsSafe limit) (h : m.program[a]? = some (.split first second))
    (hw : m.Wins limit ⟨first, sp⟩) : m.Wins limit ⟨a, sp⟩ :=
  hw.elim fun _ hn => ⟨_, (hits_split hs h).2 ⟨_, rfl, .inl hn⟩⟩

private theorem wins_second {first second : Int} (hs : m.IsSafe limit) (h : m.program[a]? = some (.split first second))
    (hw : m.Wins limit ⟨second, sp⟩) : m.Wins limit ⟨a, sp⟩ :=
  hw.elim fun _ hn => ⟨_, (hits_split hs h).2 ⟨_, rfl, .inr hn⟩⟩

private theorem wins_jump {target : Int} (hs : m.IsSafe limit) (h : m.program[a]? = some (.jump target))
    (hw : m.Wins limit ⟨target, sp⟩) : m.Wins limit ⟨a, sp⟩ :=
  hw.elim fun _ hn => ⟨_, (hits_jump hs h).2 ⟨_, rfl, hn⟩⟩

end Machine

namespace Pattern

open Machine

/-! ### What the pattern reads, the code reads -/

mutual

theorem wins_of_runs (p : Pattern) {m : Machine} {limit : Int} (hs : m.IsSafe limit) {b i j : Nat}
    (h : HasAt m.program b (p.code b)) (hr : p.Runs m.text m.start i j)
    (hw : m.Wins limit ⟨(b + p.width : Nat), j⟩) : m.Wins limit ⟨b, i⟩ := by
  cases p with
  | char text =>
    obtain ⟨hc, rfl⟩ := hr
    obtain ⟨n, hn⟩ := hw
    exact ⟨n + 1, (hits_char hs h.1).2 ⟨n, rfl, hc, hn⟩⟩
  | any =>
    obtain ⟨hi, rfl⟩ := hr
    obtain ⟨n, hn⟩ := hw
    exact ⟨n + 1, (hits_any hs h.1).2 ⟨n, rfl, hi, hn⟩⟩
  | lineStart =>
    obtain ⟨hstart, rfl⟩ := hr
    obtain ⟨n, hn⟩ := hw
    exact ⟨n + 1, (hits_lineStart hs h.1).2 ⟨n, rfl, hstart, hn⟩⟩
  | lineEnd => exact hr.elim
  | plus body =>
    simp only [code, HasAt, located_append, located_cons, length_code] at h
    obtain ⟨k, hik, hkj⟩ := hr
    have hround : m.Wins limit ⟨(b + body.width : Nat), k⟩ := by
      clear hik
      induction hkj with
      | none => exact wins_second hs h.2.1 hw
      | more hij _ ih => exact wins_first hs h.2.1 (wins_of_runs body hs h.1 hij (ih hw))
    exact wins_of_runs body hs h.1 hik hround
  | star body =>
    simp only [code, HasAt, located_append, located_cons, length_code] at h
    induction hr with
    | none => exact wins_second hs h.1 hw
    | more hij _ ih => exact wins_first hs h.1 (wins_of_runs body hs h.2.1 hij (wins_jump hs h.2.2.1 (ih hw)))
  | opt body =>
    simp only [code, HasAt, located_cons] at h
    rcases hr with rfl | hr
    · exact wins_second hs h.1 hw
    · rw [width, ← Nat.add_assoc, Nat.add_right_comm] at hw
      exact wins_first hs h.1 (wins_of_runs body hs h.2 hr hw)
  | alt first second =>
    simp only [code, HasAt, located_append, located_cons, length_code] at h
    rw [show b + (first.alt second).width = b + first.width + second.width + 2 by rw [width]; omega] at hw
    rcases hr with hr | hr
    · exact wins_first hs h.1 (wins_of_runs first hs h.2.1 hr (wins_jump hs h.2.2.1 hw))
    · rw [Nat.add_right_comm] at hw
      rw [show b + 1 + first.width + 1 = b + first.width + 2 by omega] at h
      exact wins_second hs h.1 (wins_of_runs second hs h.2.2.2 hr hw)
  | seq items => exact wins_of_runsAll items hs h hr hw
  | hole => exact hr.elim

private theorem wins_of_runsAll (ps : List Pattern) {m : Machine} {limit : Int} (hs : m.IsSafe limit) {b i j : Nat}
    (h : HasAt m.program b (codeAll b ps)) (hr : RunsAll m.text m.start ps i j)
    (hw : m.Wins limit ⟨(b + widthAll ps : Nat), j⟩) : m.Wins limit ⟨b, i⟩ := by
  cases ps with
  | nil =>
    cases hr
    exact hw
  | cons p ps =>
    simp only [codeAll, HasAt, located_append, length_code] at h
    obtain ⟨k, hik, hkj⟩ := hr
    rw [widthAll, ← Nat.add_assoc] at hw
    exact wins_of_runs p hs h.1 hik (wins_of_runsAll ps hs h.2 hkj hw)

end

mutual

theorem wins_of_accepts (p : Pattern) {m : Machine} {limit : Int} (hs : m.IsSafe limit) {b i : Nat}
    (h : HasAt m.program b (p.code b)) (ha : p.Accepts m.text m.start i) : m.Wins limit ⟨b, i⟩ := by
  cases p with
  | char _ | any | lineStart | hole => exact ha.elim
  | lineEnd => exact ⟨0, (hits_lineEnd hs h.1).2 ⟨rfl, ha⟩⟩
  | plus body =>
    simp only [code, HasAt, located_append, located_cons, length_code] at h
    obtain ⟨j, hrounds, ha⟩ := ha
    induction hrounds with
    | none => exact wins_of_accepts body hs h.1 ha
    | more hij _ ih => exact wins_of_runs body hs h.1 hij (wins_first hs h.2.1 (ih ha))
  | star body =>
    simp only [code, HasAt, located_append, located_cons, length_code] at h
    obtain ⟨j, hrounds, ha⟩ := ha
    induction hrounds with
    | none => exact wins_first hs h.1 (wins_of_accepts body hs h.2.1 ha)
    | more hij _ ih => exact wins_first hs h.1 (wins_of_runs body hs h.2.1 hij (wins_jump hs h.2.2.1 (ih ha)))
  | opt body =>
    simp only [code, HasAt, located_cons] at h
    exact wins_first hs h.1 (wins_of_accepts body hs h.2 ha)
  | alt first second =>
    simp only [code, HasAt, located_append, located_cons, length_code] at h
    rw [show b + 1 + first.width + 1 = b + first.width + 2 by omega] at h
    rcases ha with ha | ha
    · exact wins_first hs h.1 (wins_of_accepts first hs h.2.1 ha)
    · exact wins_second hs h.1 (wins_of_accepts second hs h.2.2.2 ha)
  | seq items => exact wins_of_acceptsAll items hs h ha

private theorem wins_of_acceptsAll (ps : List Pattern) {m : Machine} {limit : Int} (hs : m.IsSafe limit) {b i : Nat}
    (h : HasAt m.program b (codeAll b ps)) (ha : AcceptsAll m.text m.start ps i) : m.Wins limit ⟨b, i⟩ := by
  cases ps with
  | nil => exact ha.elim
  | cons p ps =>
    simp only [codeAll, HasAt, located_append, length_code] at h
    rcases ha with ha | ⟨j, hr, ha⟩
    · exact wins_of_accepts p hs h.1 ha
    · exact wins_of_runs p hs h.1 hr (wins_of_acceptsAll ps hs h.2 ha)

end

/-! ### What the code reads, the pattern reads -/

/-- From the position the pattern can end the match, or it can be read up to one from which a way of at most `n` steps
leads from the address `b` to a point that accepts. -/
def Reads (m : Machine) (limit : Int) (accepts : Nat → Prop) (runs : Nat → Nat → Prop) (b n i : Nat) : Prop :=
  accepts i ∨ ∃ j k, k ≤ n ∧ runs i j ∧ m.Hits limit k ⟨b, j⟩

mutual

theorem reads_of_hits (p : Pattern) (hc : p.isComplete) {m : Machine} {limit : Int} (hs : m.IsSafe limit) {b n i : Nat}
    (h : HasAt m.program b (p.code b)) (hn : m.Hits limit n ⟨b, i⟩) :
    Reads m limit (p.Accepts m.text m.start) (p.Runs m.text m.start) (b + p.width) n i := by
  cases p with
  | char text =>
    obtain ⟨k, rfl, hc, hk⟩ := (hits_char hs h.1).1 hn
    exact .inr ⟨i + 1, k, by omega, ⟨hc, rfl⟩, hk⟩
  | any =>
    obtain ⟨k, rfl, hi, hk⟩ := (hits_any hs h.1).1 hn
    exact .inr ⟨i + 1, k, by omega, ⟨hi, rfl⟩, hk⟩
  | lineStart =>
    obtain ⟨k, rfl, hstart, hk⟩ := (hits_lineStart hs h.1).1 hn
    exact .inr ⟨i, k, by omega, ⟨hstart, rfl⟩, hk⟩
  | lineEnd => exact .inl ((hits_lineEnd hs h.1).1 hn).2
  | plus body =>
    simp only [code, HasAt, located_append, located_cons, length_code] at h
    induction n using Nat.strong_induction_on generalizing i with
    | _ n ih =>
      rcases reads_of_hits body hc hs h.1 hn with ha | ⟨j, k, hk, hr, hj⟩
      · exact .inl ⟨i, .none i, ha⟩
      · obtain ⟨k, rfl, hfirst | hsecond⟩ := (hits_split hs h.2.1).1 hj
        -- another round: the way that is left is shorter, even if this round has read nothing
        · rcases ih k (by omega) hfirst with ⟨l, hl, ha⟩ | ⟨l, k', hk', ⟨x, hx, hl⟩, hw⟩
          · exact .inl ⟨l, .more hr hl, ha⟩
          · exact .inr ⟨l, k', by omega, ⟨j, hr, .more hx hl⟩, hw⟩
        · exact .inr ⟨j, k, by omega, ⟨j, hr, .none j⟩, hsecond⟩
  | star body =>
    simp only [code, HasAt, located_append, located_cons, length_code] at h
    induction n using Nat.strong_induction_on generalizing i with
    | _ n ih =>
      obtain ⟨n, rfl, hfirst | hsecond⟩ := (hits_split hs h.1).1 hn
      · rcases reads_of_hits body hc hs h.2.1 hfirst with ha | ⟨j, k, hk, hr, hj⟩
        · exact .inl ⟨i, .none i, ha⟩
        · obtain ⟨k, rfl, hback⟩ := (hits_jump hs h.2.2.1).1 hj
          rcases ih k (by omega) hback with ⟨l, hl, ha⟩ | ⟨l, k', hk', hl, hw⟩
          · exact .inl ⟨l, .more hr hl, ha⟩
          · exact .inr ⟨l, k', by omega, .more hr hl, hw⟩
      · exact .inr ⟨i, n, by omega, .none i, hsecond⟩
  | opt body =>
    simp only [code, HasAt, located_cons] at h
    obtain ⟨n, rfl, hfirst | hsecond⟩ := (hits_split hs h.1).1 hn
    · rw [width, ← Nat.add_assoc, Nat.add_right_comm]
      rcases reads_of_hits body hc hs h.2 hfirst with ha | ⟨j, k, hk, hr, hj⟩
      · exact .inl ha
      · exact .inr ⟨j, k, by omega, .inr hr, hj⟩
    · exact .inr ⟨i, n, by omega, .inl rfl, hsecond⟩
  | alt first second =>
    rw [isComplete, Bool.and_eq_true] at hc
    simp only [code, HasAt, located_append, located_cons, length_code] at h
    rw [show b + 1 + first.width + 1 = b + first.width + 2 by omega] at h
    rw [show b + (first.alt second).width = b + first.width + second.width + 2 by rw [width]; omega]
    obtain ⟨n, rfl, hfirst | hsecond⟩ := (hits_split hs h.1).1 hn
    · rcases reads_of_hits first hc.1 hs h.2.1 hfirst with ha | ⟨j, k, hk, hr, hj⟩
      · exact .inl (.inl ha)
      · obtain ⟨k, rfl, hend⟩ := (hits_jump hs h.2.2.1).1 hj
        exact .inr ⟨j, k, by omega, .inl hr, hend⟩
    · rw [Nat.add_right_comm]
      rcases reads_of_hits second hc.2 hs h.2.2.2 hsecond with ha | ⟨j, k, hk, hr, hj⟩
      · exact .inl (.inr ha)
      · exact .inr ⟨j, k, by omega, .inr hr, hj⟩
  | seq items => exact reads_of_hitsAll items hc hs h hn
  | hole => cases hc

private theorem reads_of_hitsAll (ps : List Pattern) (hc : areComplete ps) {m : Machine} {limit : Int}
    (hs : m.IsSafe limit) {b n i : Nat} (h : HasAt m.program b (codeAll b ps)) (hn : m.Hits limit n ⟨b, i⟩) :
    Reads m limit (AcceptsAll m.text m.start ps) (RunsAll m.text m.start ps) (b + widthAll ps) n i := by
  cases ps with
  | nil => exact .inr ⟨i, n, Nat.le_refl n, rfl, hn⟩
  | cons p ps =>
    simp only [codeAll, HasAt, located_append, length_code] at h
    rw [areComplete, Bool.and_eq_true] at hc
    rcases reads_of_hits p hc.1 hs h.1 hn with ha | ⟨j, k, hk, hr, hj⟩
    · exact .inl (.inl ha)
    · rw [widthAll, ← Nat.add_assoc]
      rcases reads_of_hitsAll ps hc.2 hs h.2 hj with ha | ⟨l, k', hk', hl, hw⟩
      · exact .inl (.inr ⟨j, hr, ha⟩)
      · exact .inr ⟨l, k', by omega, ⟨j, hr, hl⟩, hw⟩

end

/-- A compiled program wins from its beginning exactly if the pattern matches the text. -/
theorem wins_iff_matches {p : Pattern} (hc : p.isComplete) {m : Machine} {limit : Int} (hs : m.IsSafe limit)
    (h : HasAt m.program 0 (p.code 0 ++ [.accept])) :
    m.Wins limit ⟨0, 0⟩ ↔ p.Matches m.text m.start 0 := by
  rw [HasAt, located_append, length_code] at h
  have hend : m.program[0 + p.width]? = some .accept := h.2.1
  constructor
  · rintro ⟨n, hn⟩
    rcases reads_of_hits p hc hs h.1 hn with ha | ⟨j, -, -, hr, -⟩
    · exact .inl ha
    · exact .inr ⟨j, hr⟩
  · rintro (ha | ⟨j, hr⟩)
    · exact wins_of_accepts p hs h.1 ha
    · exact wins_of_runs p hs h.1 hr ⟨0, .accept (move_at hend)⟩

end Pattern

namespace Machine

/-! ### The answer of a compiled program -/

/-- A run of a program in which no error can come up answers whether the program can win. -/
theorem accepts_of_isSafe {m : Machine} {limit : Int} (hs : m.IsSafe limit) (hpos : 0 < m.program.size) :
    ∃ b, m.accepts { limit } = .ok b ∧ (b = true ↔ m.Wins limit ⟨0, 0⟩) := by
  obtain ⟨answer, hrun⟩ := run_of_fits hs.fits hpos limit
  have hanswer := answers_of_run (tracks_init m limit) hrun
  rw [accepts_of_run hrun]
  rcases answer with e | _ | _
  · -- the point at which an error came up would be in range
    obtain ⟨q, hq, he⟩ := hanswer
    obtain ⟨a, i, ha, hi⟩ := exists_getElem? (inRange_of_reaches_start hs.fits hpos hq)
    have hnone : m.error? limit ⟨a, q.sp⟩ = none := hs.error?_eq_none hi
    rw [← ha, he] at hnone
    cases hnone
  · refine ⟨false, rfl, nofun, fun hw => ?_⟩
    obtain ⟨q, hq, ha⟩ := hw.reaches
    exact absurd (.inl ha) (hanswer q hq)
  · obtain ⟨q, hq, ha⟩ := hanswer
    exact ⟨true, rfl, fun _ => wins_of_reaches hq ⟨0, .accept ha⟩, fun _ => rfl⟩

/-- A compiled program answers, without an error, whether the pattern matches at the beginning of the text, provided
that the start of the line is asked for nowhere but at the beginning of the program and that the counters are not
limited to less than the lengths of the program and of the text. -/
theorem accepts_eq_matches (p : Pattern) (hc : p.isComplete) (capacity : Int) (m : Machine)
    (h : p.compile capacity = .ok m.program) (hanchor : ∀ a, m.program[a]? = some .lineStart → a = 0) (limit : Int)
    (hsize : m.program.size ≤ limit) (htext : m.text.size ≤ limit) :
    ∃ b, m.accepts { limit } = .ok b ∧ (b = true ↔ p.Matches m.text m.start 0) := by
  have hs : m.IsSafe limit := ⟨Pattern.fits_of_compile hc h, hsize, htext, hanchor⟩
  obtain ⟨b, hb, hwins⟩ := accepts_of_isSafe hs (Pattern.size_pos_of_compile hc h)
  exact ⟨b, hb, hwins.trans (Pattern.wins_iff_matches hc hs (Pattern.hasAt_of_compile hc h))⟩

/-- A line of nothing but the letter `a`, as a loop whose body is a loop. -/
def wholeLine : Pattern :=
  .seq [.lineStart, .plus (.star (.char "a")), .lineEnd]

/-- The program of `wholeLine` over such a line. -/
def wholeLineMachine : Machine where
  program := #[.lineStart, .split 2 4, .char "a", .jump 1, .split 1 5, .lineEnd, .accept]
  text := #['a', 'a']

theorem wholeLine_matches : wholeLineMachine.accepts = .ok true ∧
    wholeLine.Matches wholeLineMachine.text wholeLineMachine.start 0 := by
  have hc : wholeLine.isComplete := rfl
  have hcompile : wholeLine.compile = .ok wholeLineMachine.program := Pattern.compile_of_isComplete hc _
  have hanchor : ∀ a, wholeLineMachine.program[a]? = some .lineStart → a = 0 := by
    intro a ha
    have hlt : a < 7 := (Array.getElem?_eq_some_iff.1 ha).1
    have hall : ∀ a < 7, wholeLineMachine.program[a]? = some .lineStart → a = 0 := by decide
    exact hall a hlt ha
  obtain ⟨b, hb, hiff⟩ := accepts_eq_matches wholeLine hc defaultLimit wholeLineMachine hcompile hanchor defaultLimit
    (by decide) (by decide)
  have haccepts : wholeLineMachine.accepts = .ok true := rfl
  rw [haccepts] at hb
  exact ⟨haccepts, hiff.1 (Except.ok.inj hb).symm⟩

end Machine

end PatternMachine
