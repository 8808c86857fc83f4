import PatternMachine.Machine.Limits
import PatternMachine.Proofs.Machine.Search

/-!
# Limits do nothing but end a run

Until its first violation of a limit a run goes through the states of the free run, which has no limits
(`Machine.limited_eq_free`), and there it ends with the error of the violation.  So the answer is that error, or that
of the free run, or there is none, as the free run does not end either (`Machine.cases_of_limits`).  A step that
violates no limit violates no higher one, so higher limits can change an answer only if a limit was what it said
(`Machine.accepts_of_loosens`).
-/

namespace PatternMachine

open Progress (after)

namespace Machine

variable {m : Machine} {config config' : Config} {limit : Int} {n t : Nat} {s : State} {e : EvalError}
  {answer : Except EvalError Bool}

/-! ### Steps -/

private theorem exceeded?_eq_none_iff :
    config.exceeded? t = none ↔ ∀ steps, config.maxSteps = some steps → (t : Int) ≤ steps := by
  unfold Config.exceeded?
  cases config.maxSteps with
  | none => simp
  | some steps => simp

/-- The first counter that has reached the limit is the one that the step fails at. -/
private theorem findSome?_increments (move : Move) (p : Point) (limit : Int) :
    ((move.increments p).findSome? fun (value, e) => if limit ≤ value then some e else none) =
      move.overflow? limit p := by
  cases move with
  | read =>
    simp only [Move.increments, Move.overflow?, List.findSome?_cons, List.findSome?_nil]
    by_cases hpc : limit ≤ p.pc
    · simp [hpc]
    · by_cases hsp : limit ≤ p.sp
      · simp [hpc, hsp]
      · simp [hpc, hsp]
  | advance =>
    simp only [Move.increments, Move.overflow?, List.findSome?_cons, List.findSome?_nil]
    by_cases hpc : limit ≤ p.pc
    · simp [hpc]
    · simp [hpc]
  | goto _ | fork _ _ | fail | accept | error _ => rfl

private theorem violation?_eq (m : Machine) (config : Config) (t : Nat) (s : State) :
    m.violation? config t s = (config.exceeded? t).or ((m.move s.here).overflow? config.limit s.here) := by
  rw [violation?, findSome?_increments]

/-- A step under limits ends with the violation, or it is the step of the free run. -/
private theorem limitedStep_eq (m : Machine) (config : Config) (t : Nat) (s : State) :
    m.limitedStep config t s = match m.violation? config t s with
      | some e => .ended (.error e)
      | none => m.freeStep s := by
  rw [violation?_eq, limitedStep]
  cases hsteps : config.exceeded? t with
  | some e => rfl
  | none =>
    simp only [Option.none_or, step]
    cases (m.move s.here).overflow? config.limit s.here with
    | some e => rfl
    | none => rfl

/-! ### Runs -/

private theorem Clear.mono {k : Nat} (h : m.Clear config n) (hk : k ≤ n) : m.Clear config k :=
  fun t ht s hs => h t (Nat.lt_of_lt_of_le ht hk) s hs

/-- Up to its first violation, the run is the free one. -/
theorem limited_eq_free (h : m.Clear config n) : m.limited config n = m.free n := by
  induction n with
  | zero => rfl
  | succ n ih =>
    have hn := ih (h.mono (Nat.le_succ n))
    rw [limited, free, after, after, ← limited, ← free, hn]
    cases hs : m.free n with
    | ended answer => rfl
    | going s =>
      have hclear := h n (Nat.lt_succ_self n) s hs
      simp only [limitedStep_eq, hclear]

/-- At the first violation the run ends. -/
private theorem limited_of_violation (h : m.Clear config n) (hs : m.free n = .going s)
    (hv : m.violation? config (n + 1) s = some e) : m.limited config (n + 1) = .ended (.error e) := by
  rw [limited, after, ← limited, limited_eq_free h, hs]
  simp only [limitedStep_eq, hv]

/-! ### Answers -/

/-- What so many steps and further ones come to. -/
private theorem run_add (m : Machine) (limit : Int) (n k : Nat) :
    m.run limit (n + k) {} = match after (fun _ => m.step limit) n with
      | .going s => m.run limit k s
      | .ended answer => some answer := by
  induction n generalizing k with
  | zero =>
    rw [Nat.zero_add]
    rfl
  | succ n ih =>
    rw [Nat.add_right_comm, Nat.add_assoc, ih, after]
    cases after (fun _ => m.step limit) n with
    | going s => rfl
    | ended answer => rfl

private theorem run_of_after (h : after (fun _ => m.step limit) n = .ended answer) :
    m.run limit n {} = some answer := by
  have hrun := run_add m limit n 0
  rwa [Nat.add_zero, h] at hrun

private theorem run_of_after_going (h : after (fun _ => m.step limit) n = .going s) : m.run limit n {} = none := by
  have hrun := run_add m limit n 0
  rwa [Nat.add_zero, h] at hrun

/-- A run that has ended has the same answer after any further steps. -/
private theorem after_of_le {step : Nat → State → Progress} {k : Nat} (h : after step n = .ended answer) (hk : n ≤ k) :
    after step k = .ended answer := by
  induction k, hk using Nat.le_induction with
  | base => exact h
  | succ k _ ih => rw [after, ih]

/-- As long as the steps are not too many, they are those of a run whose counters alone are limited. -/
private theorem limited_eq_step (h : ∀ steps, config.maxSteps = some steps → n = 0 ∨ n ≤ steps) :
    m.limited config n = after (fun _ => m.step config.limit) n := by
  induction n with
  | zero => rfl
  | succ n ih =>
    have hexceeded : config.exceeded? (n + 1) = none := by
      rw [exceeded?_eq_none_iff]
      intro steps hmax
      have := h steps hmax
      omega
    rw [limited, after, after, ← limited, ih fun steps hmax => by have := h steps hmax; omega]
    cases after (fun _ => m.step config.limit) n with
    | ended answer => rfl
    | going s => simp only [limitedStep, hexceeded]

/-- The answer of the run under the limits, if it ends, is that of the machine. -/
private theorem accepts_of_limited (hs : config.strategy = .depthFirst)
    (h : m.limited config n = .ended answer) : m.accepts config = answer := by
  obtain ⟨strategy, maxSteps, limit⟩ := config
  cases hs
  cases maxSteps with
  | none =>
    have hsteps : m.limited ⟨.depthFirst, none, limit⟩ n = after (fun _ => m.step limit) n :=
      limited_eq_step fun _ hk => nomatch hk
    rw [hsteps] at h
    exact accepts_of_run (run_of_after h)
  | some steps =>
    have hbefore : after (m.limitedStep ⟨.depthFirst, some steps, limit⟩) steps.toNat =
        after (fun _ => m.step limit) steps.toNat := by
      refine limited_eq_step fun k hk => ?_
      cases hk
      omega
    cases hlast : after (fun _ => m.step limit) steps.toNat with
    | ended answer' =>
      rw [hlast] at hbefore
      have hanswer := (after_of_le h (Nat.le_max_left n steps.toNat)).symm.trans
        (after_of_le hbefore (Nat.le_max_right n steps.toNat))
      cases hanswer
      simp [accepts, run_of_after hlast]
    | going s =>
      -- the run ends at the step after the last one that it is given
      have hexceeded : Config.exceeded? ⟨.depthFirst, some steps, limit⟩ (steps.toNat + 1) =
          some (.stepLimit steps) := if_pos (by omega)
      have hend : after (m.limitedStep ⟨.depthFirst, some steps, limit⟩) (steps.toNat + 1) =
          .ended (.error (.stepLimit steps)) := by
        rw [after, hbefore, hlast]
        simp only [limitedStep, hexceeded]
      have hanswer := (after_of_le h (Nat.le_max_left n _)).symm.trans (after_of_le hend (Nat.le_max_right n _))
      cases hanswer
      simp [accepts, run_of_after_going hlast]

/-! ### Outcomes -/

/-- The run comes to a violation, or it ends as the run without limits does, or neither of the two ends. -/
theorem cases_of_limits (m : Machine) (config : Config) :
    (∃ n s e, m.Clear config n ∧ m.free n = .going s ∧ m.violation? config (n + 1) s = some e) ∨
    (∃ n answer, m.Clear config n ∧ m.free n = .ended answer) ∨
    ∀ n, m.Clear config n ∧ ∃ s, m.free n = .going s := by
  by_cases hclear : ∀ n, m.Clear config n
  · right
    by_cases hend : ∃ n answer, m.free n = .ended answer
    · obtain ⟨n, answer, hn⟩ := hend
      exact .inl ⟨n, answer, hclear n, hn⟩
    · right
      intro n
      refine ⟨hclear n, ?_⟩
      cases hn : m.free n with
      | going s => exact ⟨s, rfl⟩
      | ended answer => exact absurd ⟨n, answer, hn⟩ hend
  · left
    have hexists : ∃ n, ¬m.Clear config n := not_forall.1 hclear
    classical
    -- the first violation is at the last of the first steps that are not all clear
    obtain ⟨n, hn⟩ : ∃ n, Nat.find hexists = n + 1 := by
      refine Nat.exists_eq_succ_of_ne_zero fun hzero => ?_
      have hfind := Nat.find_spec hexists
      rw [hzero] at hfind
      exact hfind fun t ht => absurd ht (Nat.not_lt_zero t)
    have hbefore : m.Clear config n := not_not.1 (Nat.find_min hexists (by omega))
    have hviolation := Nat.find_spec hexists
    rw [hn] at hviolation
    unfold Clear at hviolation
    push Not at hviolation
    obtain ⟨t, ht, s, hs, hv⟩ := hviolation
    obtain ⟨e, he⟩ := Option.ne_none_iff_exists'.1 hv
    have htn : t = n := by
      by_contra hne
      have hnone := hbefore t (by omega) s hs
      exact hv hnone
    subst htn
    exact ⟨t, s, e, hbefore, hs, he⟩

private theorem accepts_of_violation (hs : config.strategy = .depthFirst) (h : m.Clear config n)
    (hn : m.free n = .going s) (hv : m.violation? config (n + 1) s = some e) : m.accepts config = .error e :=
  accepts_of_limited hs (limited_of_violation h hn hv)

private theorem accepts_of_free (hs : config.strategy = .depthFirst) (h : m.Clear config n)
    (hn : m.free n = .ended answer) : m.accepts config = answer :=
  accepts_of_limited hs ((limited_eq_free h).trans hn)

/-- A run that violates no limit and does not end is one whose steps are not limited. -/
private theorem endless_of_clear (hs : config.strategy = .depthFirst)
    (h : ∀ n, m.Clear config n ∧ ∃ s, m.free n = .going s) :
    ¬m.Halts config.limit ∧ m.accepts config = .error .endless := by
  have hmax : config.maxSteps = none := by
    by_contra hne
    obtain ⟨steps, hsteps⟩ := Option.ne_none_iff_exists'.1 hne
    obtain ⟨s, hs⟩ := (h steps.toNat).2
    have hnone := (h (steps.toNat + 1)).1 steps.toNat (Nat.lt_succ_self _) s hs
    rw [violation?_eq, Option.or_eq_none_iff, exceeded?_eq_none_iff] at hnone
    have := hnone.1 steps hsteps
    omega
  have hhalts : ¬m.Halts config.limit := by
    rintro ⟨n, answer, hn⟩
    obtain ⟨hclear, s, hfree⟩ := h n
    have hsteps : m.limited config n = after (fun _ => m.step config.limit) n := by
      refine limited_eq_step fun k hk => ?_
      rw [hmax] at hk
      cases hk
    rw [← limited_eq_free hclear, hsteps] at hfree
    rw [run_of_after_going hfree] at hn
    cases hn
  refine ⟨hhalts, ?_⟩
  obtain ⟨strategy, maxSteps, limit⟩ := config
  cases hs
  cases hmax
  exact accepts_eq_endless_iff.2 hhalts

/-! ### Higher limits -/

/-- A violation says no more than that a limit has been reached. -/
private theorem isLimit_of_violation (h : m.violation? config t s = some e) : e.isLimit = true := by
  rw [violation?_eq, Option.or_eq_some_iff] at h
  rcases h with h | ⟨-, h⟩
  · obtain ⟨steps, -, hsteps⟩ := Option.bind_eq_some_iff.1 h
    split at hsteps
    · cases hsteps
      rfl
    · cases hsteps
  · unfold Move.overflow? at h
    repeat' split at h
    all_goals cases h
    all_goals rfl

private theorem overflow?_mono {move : Move} {p : Point} {limit' : Int} (h : move.overflow? limit p = none)
    (hle : limit ≤ limit') : move.overflow? limit' p = none := by
  cases move with
  | read =>
    by_cases hpc : limit ≤ p.pc
    · simp [Move.overflow?, hpc] at h
    · by_cases hsp : limit ≤ p.sp
      · simp [Move.overflow?, hpc, hsp] at h
      · have hpc' : ¬limit' ≤ p.pc := by omega
        have hsp' : ¬limit' ≤ p.sp := by omega
        simp [Move.overflow?, hpc', hsp']
  | advance =>
    by_cases hpc : limit ≤ p.pc
    · simp [Move.overflow?, hpc] at h
    · have hpc' : ¬limit' ≤ p.pc := by omega
      simp [Move.overflow?, hpc']
  | goto _ | fork _ _ | fail | accept | error _ => rfl

/-- A step that violates no limit violates no higher one. -/
private theorem Clear.loosen (h : m.Clear config n) (hl : config.Loosens config') : m.Clear config' n := by
  intro t ht s hs
  have hnone := h t ht s hs
  rw [violation?_eq, Option.or_eq_none_iff, exceeded?_eq_none_iff] at hnone ⊢
  refine ⟨fun steps' hsteps' => ?_, overflow?_mono hnone.2 hl.limit_le⟩
  obtain ⟨steps, hsteps, hle⟩ := hl.steps_le steps' hsteps'
  exact Int.le_trans (hnone.1 steps hsteps) hle

/-- Higher limits do not change an answer other than that a limit has been reached. -/
theorem accepts_of_loosens (hs : config.strategy = .depthFirst) (hs' : config'.strategy = .depthFirst)
    (hl : config.Loosens config') (h : ∀ e, m.accepts config = .error e → e.isLimit = false) :
    m.accepts config' = m.accepts config := by
  rcases m.cases_of_limits config with ⟨n, s, e, hclear, hn, hv⟩ | ⟨n, answer, hclear, hn⟩ | hgoing
  · have hlimit := h e (accepts_of_violation hs hclear hn hv)
    rw [isLimit_of_violation hv] at hlimit
    cases hlimit
  · rw [accepts_of_free hs hclear hn, accepts_of_free hs' (hclear.loosen hl) hn]
  · have hgoing' : ∀ n, m.Clear config' n ∧ ∃ s, m.free n = .going s :=
      fun n => ⟨(hgoing n).1.loosen hl, (hgoing n).2⟩
    rw [(endless_of_clear hs hgoing).2, (endless_of_clear hs' hgoing').2]

/-- Under limits a run goes through the steps of the run without limits up to the first violation and ends there; if
there is none, it ends as that run does, or never.  Higher limits do not change an answer other than that a limit has
been reached. -/
theorem accepts_limits (m : Machine) (config : Config) (hs : config.strategy = .depthFirst) :
    (∀ n, m.Clear config n → m.limited config n = m.free n) ∧
    (∀ n s e, m.Clear config n → m.free n = .going s → m.violation? config (n + 1) s = some e →
      m.limited config (n + 1) = .ended (.error e) ∧ m.accepts config = .error e) ∧
    (∀ n answer, m.Clear config n → m.free n = .ended answer → m.accepts config = answer) ∧
    ((∀ n, m.Clear config n ∧ ∃ s, m.free n = .going s) →
      ¬m.Halts config.limit ∧ m.accepts config = .error .endless) ∧
    ∀ config', config'.strategy = .depthFirst → config.Loosens config' →
      (∀ e, m.accepts config = .error e → e.isLimit = false) → m.accepts config' = m.accepts config :=
  ⟨fun _ => limited_eq_free,
    fun _ _ _ hclear hn hv => ⟨limited_of_violation hclear hn hv, accepts_of_violation hs hclear hn hv⟩,
    fun _ _ => accepts_of_free hs, endless_of_clear hs, fun _ hs' hl => accepts_of_loosens hs hs' hl⟩

/-- A program that jumps past a limit, which is no violation, and reads a character there, which is one. -/
def leaping : Machine where
  program := #[.jump 2, .accept, .char "a", .accept]
  text := #['a']

theorem leaping_limits :
    leaping.accepts { maxSteps := some 1, limit := 2 } = .error (.stepLimit 1) ∧
    leaping.accepts { limit := 2 } = .error .counterOverflow ∧
    leaping.accepts { maxSteps := some 3, limit := 3 } = .ok true ∧ leaping.accepts = .ok true := by
  have hclear (config : Config) (hstep : config.exceeded? 1 = none) : leaping.Clear config 1 := by
    intro t ht s hs
    obtain rfl : t = 0 := by omega
    cases hs
    rw [violation?_eq, hstep]
    rfl
  have hfree : leaping.free 1 = .going { here := ⟨2, 0⟩ } := rfl
  have htight : leaping.accepts { maxSteps := some 3, limit := 3 } = .ok true := rfl
  refine ⟨?_, ?_, htight, ?_⟩
  · exact ((accepts_limits leaping { maxSteps := some 1, limit := 2 } rfl).2.1 1 _ _ (hclear _ rfl) hfree rfl).2
  · exact ((accepts_limits leaping { limit := 2 } rfl).2.1 1 _ _ (hclear _ rfl) hfree rfl).2
  · have hlimits := (accepts_limits leaping { maxSteps := some 3, limit := 3 } rfl).2.2.2.2
    have hloosens : Config.Loosens { maxSteps := some 3, limit := 3 } {} := ⟨by decide, nofun⟩
    rw [hlimits {} rfl hloosens (fun e he => by rw [htight] at he; cases he), htight]

end Machine

end PatternMachine
