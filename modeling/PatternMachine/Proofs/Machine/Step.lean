import PatternMachine.Machine.Reach
import PatternMachine.Machine.Run

/-!
# Steps of a run

A point is of one of five kinds (`Machine.point_cases`): an error comes up, it accepts, it fails, it has one
successor, or it is a split with two.  For each kind there is one equation for the step of a run there; what a
split does depends on whether it has been followed before.
-/

namespace PatternMachine

theorem mem_insert_point {seen : Std.TreeSet Point Point.compare} {p q : Point} :
    q ∈ seen.insert p ↔ q = p ∨ q ∈ seen := by
  rw [Std.TreeSet.mem_insert, Std.LawfulEqCmp.compare_eq_iff_eq]
  exact or_congr_left eq_comm

namespace Machine

variable {m : Machine} {limit : Int} {p q r : Point} {s s' : State}

/-! ### Kinds of points -/

/-- What happens at an address is up to the instruction there. -/
theorem move_at {a sp : Nat} {i : Instr} :
    m.program[a]? = some i → m.move ⟨a, sp⟩ = match i with
      | .char text => if m.text[sp]?.map String.singleton = some text then .read else .fail
      | .any => if sp < m.text.size then .read else .fail
      | .lineStart => if a ≠ 0 then .error (.misplacedAnchor a) else if m.start ≠ 0 then .fail else .advance
      | .lineEnd => if sp = m.text.size then .accept else .fail
      | .accept => .accept
      | .jump target => .goto target
      | .split first second => .fork first second
      | .illegal => .error .illegal := by
  intro h
  have ha : ¬(a : Int) < 0 := by omega
  simp only [move, ha, ↓reduceIte, Int.toNat_natCast, h]
  cases i with
  | char text => cases m.text[sp]? <;> simp [eq_comm]
  | _ => simp

/-- An error comes up at the point, it accepts, it fails, it has one successor, or it has two. -/
theorem point_cases (m : Machine) (limit : Int) (p : Point) :
    (∃ e, m.error? limit p = some e) ∨ m.move p = .accept ∨ m.move p = .fail ∨
      (∃ q, m.error? limit p = none ∧ (m.move p).targets p = [q]) ∨ ∃ q r, (m.move p).targets p = [q, r] := by
  rcases he : m.error? limit p with _ | e
  · cases h : m.move p with
    | read | advance | goto _ => exact .inr (.inr (.inr (.inl ⟨_, rfl, rfl⟩)))
    | fork first second => exact .inr (.inr (.inr (.inr ⟨_, _, rfl⟩)))
    | fail => exact .inr (.inr (.inl rfl))
    | accept => exact .inr (.inl rfl)
    | error e => simp [error?, h] at he
  · exact .inl ⟨e, rfl⟩

theorem error?_of_accept (h : m.move p = .accept) : m.error? limit p = none := by
  simp [error?, h, Move.overflow?]

theorem error?_of_fail (h : m.move p = .fail) : m.error? limit p = none := by
  simp [error?, h, Move.overflow?]

/-- A point with two successors is a split. -/
theorem exists_fork (h : (m.move p).targets p = [q, r]) :
    ∃ first second, m.move p = .fork first second ∧ q = ⟨first, p.sp⟩ ∧ r = ⟨second, p.sp⟩ := by
  cases hm : m.move p with
  | fork first second =>
    rw [hm] at h
    simp only [Move.targets, List.cons.injEq, and_true] at h
    exact ⟨first, second, rfl, h.1.symm, h.2.symm⟩
  | _ => simp [hm, Move.targets] at h

theorem error?_of_targets (h : (m.move p).targets p = [q, r]) : m.error? limit p = none := by
  obtain ⟨first, second, hm, -, -⟩ := exists_fork h
  simp [error?, hm, Move.overflow?]

/-! ### Steps -/

theorem step_error {e : EvalError} (h : m.error? limit s.here = some e) : m.step limit s = .ended (.error e) := by
  unfold error? at h
  unfold step
  cases hm : m.move s.here with
  | error e' =>
    rw [hm] at h
    simp only [Option.some.injEq] at h
    simp [Move.overflow?, State.follow, h]
  | _ =>
    rw [hm] at h
    simp only at h
    simp only [h]

theorem step_accept (h : m.move s.here = .accept) : m.step limit s = .ended (.ok true) := by
  simp [step, h, Move.overflow?, State.follow]

theorem step_fail (h : m.move s.here = .fail) : m.step limit s = s.backtrack := by
  simp [step, h, Move.overflow?, State.follow]

theorem step_single (he : m.error? limit s.here = none) (ht : (m.move s.here).targets s.here = [q]) :
    m.step limit s = .going { s with here := q } := by
  unfold error? at he
  unfold step
  cases hm : m.move s.here with
  | read | advance | goto target =>
    rw [hm] at he ht
    simp only [Move.targets, List.cons.injEq, and_true] at ht
    simp only at he
    simp only [he, State.follow, ht]
  | _ => simp [hm, Move.targets] at ht

/-- A split that has been followed before is not followed again. -/
theorem step_seen (ht : (m.move s.here).targets s.here = [q, r]) (h : s.here ∈ s.seen) :
    m.step limit s = s.backtrack := by
  obtain ⟨first, second, hm, -, -⟩ := exists_fork ht
  simp [step, hm, Move.overflow?, State.follow, h]

theorem step_fresh (ht : (m.move s.here).targets s.here = [q, r]) (h : s.here ∉ s.seen) :
    m.step limit s = .going { here := q, pending := r :: s.pending, seen := s.seen.insert s.here } := by
  obtain ⟨first, second, hm, rfl, rfl⟩ := exists_fork ht
  simp [step, hm, Move.overflow?, State.follow, h]

/-! ### Runs -/

theorem run_of_going {n : Nat} (h : m.step limit s = .going s') : m.run limit (n + 1) s = m.run limit n s' := by
  rw [run, h]

theorem run_of_ended {n : Nat} {answer : Except EvalError Bool} (h : m.step limit s = .ended answer) :
    m.run limit (n + 1) s = some answer := by
  rw [run, h]

/-- More steps do not change the answer of a run. -/
theorem run_mono {n n' : Nat} {answer : Except EvalError Bool} (h : m.run limit n s = some answer) (hn : n ≤ n') :
    m.run limit n' s = some answer := by
  induction n generalizing n' s with
  | zero => cases h
  | succ n ih =>
    obtain ⟨k, rfl⟩ : ∃ k, n' = k + 1 := ⟨n' - 1, by omega⟩
    rw [run] at h ⊢
    split at h
    · exact ih h (by omega)
    · exact h

end Machine

end PatternMachine
