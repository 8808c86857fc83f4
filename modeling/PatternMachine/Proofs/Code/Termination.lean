import PatternMachine.Proofs.Code.Flow
import PatternMachine.Proofs.Machine.Search

/-!
# Compiled programs end

A run of a compiled program stays in range, and between two splits its address only grows, but for a jump back to a
split.  So a glide is shorter than the program, and the bound on the length of a run is a polynomial in the length of
the program and that of the text (`Machine.halts_of_compile`).  The errors that are left are those of the counters and
of the line-start instruction (`Machine.Faults`).
-/

namespace PatternMachine

namespace Machine

variable {m : Machine} {limit : Int} {p q : Point}

theorem exists_destination (h : m.Leads limit p q) :
    ∃ (a : Nat) (i : Instr), p.pc = a ∧ m.program[a]? = some i ∧ q.pc ∈ i.destinations a := by
  obtain ⟨a, i, hp, hi⟩ := exists_getElem? (inRange_of_error? h.1)
  refine ⟨a, i, hp, hi, ?_⟩
  have hq := h.2
  obtain ⟨_, sp⟩ := p
  subst hp
  rw [move_at hi] at hq
  cases i with
  | char text | any | lineStart | lineEnd =>
    simp only at hq
    repeat' split at hq
    all_goals simp_all [Move.targets, Instr.destinations]
  | split first second =>
    simp only [Move.targets, List.mem_cons, List.not_mem_nil, or_false] at hq
    rcases hq with rfl | rfl <;> simp [Instr.destinations]
  | _ => simp_all [Move.targets, Instr.destinations]

/-! ### Runs stay in range -/

private theorem inRange_of_leads (hf : m.program.Fits) (h : m.Leads limit p q) : m.InRange q := by
  obtain ⟨a, i, -, hi, hq⟩ := exists_destination h
  exact hf.destination_lt hi hq

private theorem inRange_of_reaches (hf : m.program.Fits) (h : m.Reaches limit p q) (hp : m.InRange p) :
    m.InRange q := by
  induction h with
  | refl => exact hp
  | tail _ hl _ => exact inRange_of_leads hf hl

theorem inRange_of_reaches_start (hf : m.program.Fits) (hsize : 0 < m.program.size)
    (h : m.Reaches limit ⟨0, 0⟩ q) : m.InRange q :=
  inRange_of_reaches hf h ⟨Int.le_refl 0, by simpa using hsize⟩

/-! ### Glides are short -/

private theorem next?_of_split {a sp : Nat} {first second : Int} (h : m.program[a]? = some (.split first second)) :
    m.next? limit ⟨a, sp⟩ = none := by
  rw [Option.eq_none_iff_forall_ne_some]
  intro q hq
  have ht := (next?_eq_some_iff.1 hq).2
  rw [move_at h] at ht
  cases ht

/-- The only point with one successor from which the address does not grow is a jump back to a split. -/
private theorem lt_or_next?_eq_none (hf : m.program.Fits) (h : m.next? limit p = some q) :
    p.pc < q.pc ∨ p.pc + 1 < m.program.size ∧ m.next? limit q = none := by
  obtain ⟨he, ht⟩ := next?_eq_some_iff.1 h
  obtain ⟨a, i, hp, hi, hq⟩ := exists_destination ⟨he, by rw [ht]; exact List.mem_singleton_self q⟩
  obtain ⟨b, hb⟩ := Int.eq_ofNat_of_zero_le (hf.destination_lt hi hq).1
  rcases hf.lt_or_split_of_flows ⟨i, hi, hb ▸ hq⟩ with hlt | ⟨first, second, hsplit⟩ | ⟨hsize, first, second, hsplit⟩
  · left
    omega
  · obtain ⟨_, sp⟩ := p
    subst hp
    rw [next?_of_split hsplit] at h
    cases h
  · right
    obtain ⟨_, sp⟩ := q
    subst hb
    exact ⟨by omega, next?_of_split hsplit⟩

private theorem le_or_lt_of_glide (hf : m.program.Fits) {k : Nat} (h : m.glide limit k p = some q) :
    p.pc + k ≤ q.pc ∨ p.pc + k < m.program.size := by
  induction k generalizing p with
  | zero =>
    cases h
    left
    omega
  | succ k ih =>
    obtain ⟨r, hr, hq⟩ := Option.bind_eq_some_iff.1 h
    rcases lt_or_next?_eq_none hf hr with hlt | ⟨hsize, hnone⟩
    · have := ih hq
      omega
    · -- after a jump back the glide is over
      cases k with
      | zero =>
        right
        omega
      | succ k =>
        rw [glide, hnone] at hq
        cases hq

/-! ### Errors -/

/-- The errors that can come up at a point in range if the program fits. -/
inductive Faults (m : Machine) (limit : Int) (p : Point) : EvalError → Prop where
  | counter : limit ≤ p.pc → Faults m limit p .counterOverflow
  | position : limit ≤ p.sp → p.sp < m.text.size → Faults m limit p .positionOverflow
  | anchor {a : Nat} : p.pc = a → a ≠ 0 → m.program[a]? = some .lineStart → Faults m limit p (.misplacedAnchor a)

private theorem faults_of_move (hf : m.program.Fits) (hp : m.InRange p) {e : EvalError} (he : m.move p = .error e) :
    m.Faults limit p e := by
  obtain ⟨a, i, ha, hi⟩ := exists_getElem? hp
  obtain ⟨_, sp⟩ := p
  subst ha
  rw [move_at hi] at he
  cases i with
  | lineStart =>
    simp only at he
    split at he
    · rename_i hne
      cases he
      exact .anchor rfl hne hi
    · split at he <;> cases he
  | char text | any | lineEnd =>
    simp only at he
    split at he <;> cases he
  | illegal => exact (hf a _ hi).elim
  | accept | jump _ | split _ _ => cases he

theorem faults_of_error? (hf : m.program.Fits) (hp : m.InRange p) {e : EvalError} (he : m.error? limit p = some e) :
    m.Faults limit p e := by
  unfold error? at he
  cases hm : m.move p with
  | read =>
    simp only [hm, Move.overflow?] at he
    split at he
    · rename_i hpc
      cases he
      exact .counter hpc
    · split at he
      · rename_i hsp
        cases he
        exact .position hsp (lt_size_of_read hm)
      · cases he
  | advance =>
    simp only [hm, Move.overflow?] at he
    split at he
    · rename_i hpc
      cases he
      exact .counter hpc
    · cases he
  | error e' =>
    simp only [hm, Option.some.injEq] at he
    subst he
    exact faults_of_move hf hp hm
  | goto _ | fork _ _ | fail | accept => simp [hm, Move.overflow?] at he

/-! ### The number of steps -/

/-- A glide as long as the program leads out of range. -/
private theorem not_inRange_of_glide (hf : m.program.Fits) (h : m.glide limit m.program.size p = some q) :
    ¬m.InRange q := by
  intro hq
  obtain ⟨k, hk⟩ : ∃ k, m.program.size = k + 1 := ⟨m.program.size - 1, by unfold InRange at hq; omega⟩
  have hp : m.InRange p := inRange_of_glide (by rw [hk] at h; exact h)
  unfold InRange at hp hq
  rcases le_or_lt_of_glide hf h with hle | hlt
  · omega
  · omega

private theorem not_circles (hf : m.program.Fits) : ¬m.Circles limit p := by
  intro h
  obtain ⟨r, hr⟩ := Option.ne_none_iff_exists'.1 (h (m.program.size + 1))
  rw [glide_add] at hr
  obtain ⟨q, hq, hqr⟩ := Option.bind_eq_some_iff.1 hr
  exact not_inRange_of_glide hf hq (inRange_of_glide hqr)

/-- A run of a program that fits ends within a number of steps that is polynomial in the lengths of the program and
of the text. -/
theorem run_of_fits (hf : m.program.Fits) (hsize : 0 < m.program.size) (limit : Int) :
    ∃ answer, m.run limit (m.program.size * (2 * m.splits * (m.text.size + 1) + 1)) {} = some answer := by
  rw [← load_init]
  rcases run_ends_or_never (fun p q _ h hq => absurd hq (not_inRange_of_glide hf h)) m.inText_init with
    hrun | ⟨pc, hrun⟩ | ⟨⟨p, hp⟩, -⟩
  · exact hrun
  · -- a run does not come to a point out of range
    obtain ⟨q, hq, he⟩ := answers_of_run (tracks_init m limit) hrun
    cases faults_of_error? hf (inRange_of_reaches_start hf hsize hq) he
  · exact absurd hp (not_circles hf)

/-- A program that fits fails for want of steps, or because of an error at some point in range. -/
theorem faults_of_accepts (hf : m.program.Fits) (hsize : 0 < m.program.size) {config : Config}
    (hs : config.strategy = .depthFirst) {e : EvalError} (he : m.accepts config = .error e) :
    (∃ k, config.maxSteps = some k ∧ e = .stepLimit k) ∨ ∃ q, m.InRange q ∧ m.Faults config.limit q e := by
  by_cases hl : ∃ k, m.accepts config = .error (.stepLimit k)
  · obtain ⟨k, hk⟩ := hl
    have hek : e = .stepLimit k := Except.error.inj (he.symm.trans hk)
    exact .inl ⟨k, maxSteps_of_accepts hs hk, hek⟩
  · obtain ⟨answer, hrun⟩ := run_of_fits hf hsize config.limit
    have hanswer := answers_accepts hs ⟨_, answer, hrun⟩ (not_exists.1 hl)
    rw [he] at hanswer
    obtain ⟨q, hq, herror⟩ := hanswer
    have hrange := inRange_of_reaches_start hf hsize hq
    exact .inr ⟨q, hrange, faults_of_error? hf hrange herror⟩

/-- A run of a compiled program ends, and a bound on the steps makes no difference unless it is smaller than the
given polynomial in the lengths of the program and of the text. -/
theorem halts_of_compile (p : Pattern) (hc : p.isComplete) (capacity : Int) (m : Machine)
    (h : p.compile capacity = .ok m.program) (limit : Int) :
    m.Halts limit ∧ m.accepts { limit } ≠ .error .endless ∧
      ∀ k : Int, (m.program.size * (2 * m.splits * (m.text.size + 1) + 1) : Nat) ≤ k →
        (∀ j, m.accepts { limit, maxSteps := some k } ≠ .error (.stepLimit j)) ∧
          m.accepts { limit, maxSteps := some k } = m.accepts { limit } := by
  obtain ⟨answer, hrun⟩ := run_of_fits (Pattern.fits_of_compile hc h) (Pattern.size_pos_of_compile hc h) limit
  have hhalts : m.Halts limit := ⟨_, answer, hrun⟩
  refine ⟨hhalts, fun hend => accepts_eq_endless_iff.1 hend hhalts, fun k hk => ⟨fun j hj => ?_, ?_⟩⟩
  · rw [accepts_of_run_le hrun hk] at hj
    subst hj
    exact (run_ne hrun).2 j rfl
  · rw [accepts_of_run_le hrun hk, accepts_of_run hrun]

/-- A star under a star, over a text that it can leave at every position. -/
def nested : Machine where
  program := #[.split 1 5, .split 2 4, .char "a", .jump 1, .jump 0, .accept]
  text := #['a', 'a', 'b']

theorem nested_halts : nested.Halts defaultLimit ∧
    nested.accepts { maxSteps := some 102 } = nested.accepts ∧ nested.accepts = .ok true := by
  have hc : (Pattern.star (.star (.char "a"))).isComplete := rfl
  have hcompile : (Pattern.star (.star (.char "a"))).compile = .ok nested.program := Pattern.compile_of_isComplete hc _
  obtain ⟨hhalts, -, hsteps⟩ := halts_of_compile _ hc _ nested hcompile defaultLimit
  exact ⟨hhalts, (hsteps 102 (by decide)).2, rfl⟩

end Machine

end PatternMachine
