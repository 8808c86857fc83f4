import Mathlib.Data.Fintype.Card
import Mathlib.Data.Finset.Prod
import PatternMachine.Proofs.Machine.Step

/-!
# Runs that end

As long as every point has one successor, a run glides from point to point.  A glide that comes back to a point
circles for ever; any other one ends at a point where the run ends, follows a split, or gives up its branch.  Since
a split is followed once for each number of characters read, and each time leaves one branch to be given up, the
length of the glides bounds that of the run (`Machine.run_ends_or_never`).

For an arbitrary program a glide is no longer than the number of points in range, so a run that ends does so within
`Machine.stepBound` steps.
-/

namespace PatternMachine.Machine

variable {m : Machine} {limit : Int} {p q r : Point} {s s' : State}

/-! ### Points in range -/

/-- There is an instruction at the point. -/
def InRange (m : Machine) (p : Point) : Prop :=
  0 ≤ p.pc ∧ p.pc < m.program.size

private theorem error?_of_not_inRange (h : ¬m.InRange p) : m.error? limit p = some (.outOfRange p.pc) := by
  have hm : m.move p = .error (.outOfRange p.pc) := by
    unfold move
    split
    · rfl
    · rw [Array.getElem?_eq_none (by unfold InRange at h; omega)]
  simp [error?, hm]

theorem inRange_of_error? (h : m.error? limit p = none) : m.InRange p := by
  by_contra hp
  rw [error?_of_not_inRange hp] at h
  cases h

theorem exists_getElem? (h : m.InRange p) : ∃ (a : Nat) (i : Instr), p.pc = a ∧ m.program[a]? = some i := by
  unfold InRange at h
  exact ⟨p.pc.toNat, _, (Int.toNat_of_nonneg h.1).symm, Array.getElem?_eq_getElem (by omega)⟩

theorem lt_size_of_read (h : m.move p = .read) : p.sp < m.text.size := by
  unfold move at h
  grind

private theorem split_of_fork {first second : Int} (h : m.move p = .fork first second) :
    m.program[p.pc.toNat]? = some (.split first second) := by
  unfold move at h
  grind

private theorem sp_le_of_mem_targets (hp : p.sp ≤ m.text.size) (h : q ∈ (m.move p).targets p) : q.sp ≤ m.text.size := by
  cases hm : m.move p with
  | read =>
    have := lt_size_of_read hm
    simp only [hm, Move.targets, List.mem_singleton] at h
    rw [h]
    exact this
  | advance | goto target =>
    simp only [hm, Move.targets, List.mem_singleton] at h
    rw [h]
    exact hp
  | fork first second =>
    simp only [hm, Move.targets, List.mem_cons, List.not_mem_nil, or_false] at h
    rcases h with rfl | rfl <;> exact hp
  | _ => simp [hm, Move.targets] at h

/-! ### Glides -/

/-- What follows a point that has one successor. -/
def next? (m : Machine) (limit : Int) (p : Point) : Option Point :=
  match m.error? limit p, (m.move p).targets p with
  | none, [q] => some q
  | _, _ => none

theorem next?_eq_some_iff :
    m.next? limit p = some q ↔ m.error? limit p = none ∧ (m.move p).targets p = [q] := by
  unfold next?
  split
  · rename_i he ht
    simp [he, ht]
  · rename_i h
    simp only [reduceCtorEq, false_iff]
    exact fun hq => h q hq.1 hq.2

/-- The point to which so many moves lead if each of the points before it has one successor. -/
def glide (m : Machine) (limit : Int) : Nat → Point → Option Point
  | 0, p => some p
  | k + 1, p => (m.next? limit p).bind (m.glide limit k)

theorem glide_add (j k : Nat) (p : Point) :
    m.glide limit (j + k) p = (m.glide limit j p).bind (m.glide limit k) := by
  induction j generalizing p with
  | zero => simp [glide]
  | succ j ih =>
    rw [Nat.add_right_comm, glide, glide]
    cases m.next? limit p with
    | none => rfl
    | some q => exact ih q

private theorem run_of_glide {k : Nat} (h : m.glide limit k s.here = some q) (n : Nat) :
    m.run limit (k + n) s = m.run limit n { s with here := q } := by
  induction k generalizing s with
  | zero =>
    cases h
    rw [Nat.zero_add]
  | succ k ih =>
    obtain ⟨p, hp, hq⟩ := Option.bind_eq_some_iff.1 h
    obtain ⟨he, ht⟩ := next?_eq_some_iff.1 hp
    rw [Nat.add_right_comm, run_of_going (step_single he ht)]
    exact ih hq

private theorem glide_sp_le {k : Nat} (hp : p.sp ≤ m.text.size) (h : m.glide limit k p = some q) :
    q.sp ≤ m.text.size := by
  induction k generalizing p with
  | zero =>
    cases h
    exact hp
  | succ k ih =>
    obtain ⟨r, hr, hq⟩ := Option.bind_eq_some_iff.1 h
    refine ih (sp_le_of_mem_targets hp ?_) hq
    rw [(next?_eq_some_iff.1 hr).2]
    exact List.mem_singleton_self r

theorem inRange_of_glide {k : Nat} (h : m.glide limit (k + 1) p = some q) : m.InRange p := by
  obtain ⟨r, hr, -⟩ := Option.bind_eq_some_iff.1 h
  exact inRange_of_error? (next?_eq_some_iff.1 hr).1

/-- The run never comes to a split, nor to an end. -/
def Circles (m : Machine) (limit : Int) (p : Point) : Prop :=
  ∀ k, m.glide limit k p ≠ none

private theorem run_of_circles (h : m.Circles limit s.here) (n : Nat) : m.run limit n s = none := by
  obtain ⟨q, hq⟩ := Option.ne_none_iff_exists'.1 (h n)
  exact run_of_glide hq 0

private theorem glide_of_le {j k : Nat} (h : m.glide limit k p ≠ none) (hj : j ≤ k) :
    ∃ q, m.glide limit j p = some q ∧ m.glide limit (k - j) q = m.glide limit k p := by
  rw [← Nat.add_sub_cancel' hj, glide_add] at h
  have hne : m.glide limit j p ≠ none := fun hq => h (by rw [hq]; rfl)
  obtain ⟨q, hq⟩ := Option.ne_none_iff_exists'.1 hne
  refine ⟨q, hq, ?_⟩
  conv => rhs; rw [← Nat.add_sub_cancel' hj, glide_add, hq]
  rfl

/-- A glide that comes back to a point never ends. -/
private theorem circles_of_repeat {i j : Nat} (hi : m.glide limit i p = some q) (hj : m.glide limit j p = some q)
    (hij : i < j) : m.Circles limit p := by
  have hd : m.glide limit (j - i) q = some q := by
    rw [← Nat.add_sub_cancel' (Nat.le_of_lt hij), glide_add, hi] at hj
    exact hj
  have hn : ∀ n, m.glide limit (n * (j - i)) q = some q := by
    intro n
    induction n with
    | zero => simp [glide]
    | succ n ih => rw [Nat.succ_mul, glide_add, ih]; exact hd
  intro k hk
  have hlong : m.glide limit (i + k * (j - i)) p ≠ none := by
    rw [glide_add, hi, Option.bind_some, hn]
    exact Option.some_ne_none q
  have hle : k ≤ i + k * (j - i) := Nat.le_add_left_of_le (Nat.le_mul_of_pos_right k (by omega))
  obtain ⟨r, hr, -⟩ := glide_of_le hlong hle
  rw [hk] at hr
  cases hr

private theorem exists_end {k : Nat} (h : m.glide limit k p = none) :
    ∃ j q, m.glide limit j p = some q ∧ m.next? limit q = none := by
  induction k generalizing p with
  | zero => cases h
  | succ k ih =>
    cases hn : m.next? limit p with
    | none => exact ⟨0, p, rfl, hn⟩
    | some r =>
      rw [glide, hn] at h
      obtain ⟨j, q, hj, hq⟩ := ih h
      exact ⟨j + 1, q, by rw [glide, hn]; exact hj, hq⟩

/-! ### The length of a run -/

/-- The points in range at which there is a split, as pairs. -/
def splitPoints (m : Machine) : Finset (Nat × Nat) :=
  ((Finset.range m.program.size).filter fun a => m.program[a]?.map Instr.opcode = some .split) ×ˢ
    Finset.range (m.text.size + 1)

private theorem range_map_getElem? {α : Type} (l : List α) :
    (List.range l.length).map (l[·]?) = l.map some := by
  apply List.ext_getElem?
  intro i
  by_cases hi : i < l.length <;> simp [hi]

private theorem card_splitPoints (m : Machine) : m.splitPoints.card = m.splits * (m.text.size + 1) := by
  -- the addresses of the splits are as many as the splits
  have hf : ((Finset.range m.program.size).filter fun a => m.program[a]?.map Instr.opcode = some .split).card =
      m.splits := by
    have hl := congrArg (List.countP fun i => i.map Instr.opcode = some .split)
      (range_map_getElem? m.program.toList)
    rw [List.countP_map, List.countP_map] at hl
    rw [splits, ← Array.countP_toList]
    calc
      _ = ((List.range m.program.size).filter fun a => m.program[a]?.map Instr.opcode = some .split).length := rfl
      _ = _ := by
        rw [← List.countP_eq_length_filter]
        simpa [Function.comp_def] using hl
  rw [splitPoints, Finset.card_product, hf, Finset.card_range]

/-- The number of splits that have not been followed yet. -/
def fresh (m : Machine) (s : State) : Nat :=
  (m.splitPoints.filter fun a => (⟨a.1, a.2⟩ : Point) ∉ s.seen).card

/-- A bound on how often the run will still follow a split or give up a branch. -/
def load (m : Machine) (s : State) : Nat :=
  2 * m.fresh s + s.pending.length

/-- No point of the state lies behind the text. -/
def InText (m : Machine) (s : State) : Prop :=
  ∀ p ∈ s.here :: s.pending, p.sp ≤ m.text.size

private theorem mem_splitPoints (h : (m.move p).targets p = [q, r]) (hp : p.sp ≤ m.text.size) :
    ∃ a : Nat, p.pc = a ∧ (a, p.sp) ∈ m.splitPoints := by
  obtain ⟨first, second, hm, -, -⟩ := exists_fork h
  have he : m.error? 0 p = none := error?_of_targets h
  have hr := inRange_of_error? he
  refine ⟨p.pc.toNat, by unfold InRange at hr; omega, ?_⟩
  unfold InRange at hr
  simp only [splitPoints, Finset.mem_product, Finset.mem_filter, Finset.mem_range, split_of_fork hm,
    Option.map_some, Instr.opcode, and_true]
  omega

private theorem fresh_insert_lt (h : (m.move s.here).targets s.here = [q, r]) (hp : s.here.sp ≤ m.text.size)
    (hs : s.here ∉ s.seen) :
    m.fresh { here := q, pending := r :: s.pending, seen := s.seen.insert s.here } < m.fresh s := by
  obtain ⟨a, ha, hm⟩ := mem_splitPoints h hp
  have hpoint : (⟨(a : Nat), s.here.sp⟩ : Point) = s.here := by rw [← ha]
  apply Finset.card_lt_card
  rw [Finset.ssubset_iff_of_subset]
  · refine ⟨(a, s.here.sp), ?_, ?_⟩
    · rw [Finset.mem_filter, hpoint]
      exact ⟨hm, hs⟩
    · rw [Finset.mem_filter, hpoint, mem_insert_point]
      exact fun hn => hn.2 (.inl rfl)
  · intro b hb
    rw [Finset.mem_filter, mem_insert_point] at hb
    rw [Finset.mem_filter]
    exact ⟨hb.1, fun hn => hb.2 (.inr hn)⟩

/-- The run ends here, or it follows a split or gives up a branch. -/
private def Turns (m : Machine) (limit : Int) (s : State) : Prop :=
  (∃ answer, m.step limit s = .ended answer ∧ (m.InRange s.here ∨ ∃ pc, answer = .error (.outOfRange pc))) ∨
    m.InRange s.here ∧ ∃ s', m.step limit s = .going s' ∧ m.InText s' ∧ m.load s' < m.load s

private theorem turns_of_backtrack (hs : m.InText s) (he : m.error? limit s.here = none)
    (hb : m.step limit s = s.backtrack) : m.Turns limit s := by
  cases hp : s.pending with
  | nil =>
    rw [State.backtrack, hp] at hb
    exact .inl ⟨_, hb, .inl (inRange_of_error? he)⟩
  | cons p pending =>
    rw [State.backtrack, hp] at hb
    refine .inr ⟨inRange_of_error? he, _, hb, fun q hq => hs q ?_, ?_⟩
    · rw [hp]
      exact List.mem_cons_of_mem _ hq
    · simp [load, fresh, hp]

private theorem turns_of_next? (hs : m.InText s) (hn : m.next? limit s.here = none) : m.Turns limit s := by
  have hsp := hs s.here (List.mem_cons_self ..)
  rcases m.point_cases limit s.here with ⟨e, he⟩ | ha | hf | ⟨q, he, ht⟩ | ⟨q, r, ht⟩
  · refine .inl ⟨_, step_error he, ?_⟩
    by_cases hr : m.InRange s.here
    · exact .inl hr
    · rw [error?_of_not_inRange hr, Option.some.injEq] at he
      exact .inr ⟨_, congrArg _ he.symm⟩
  · have he : m.error? limit s.here = none := error?_of_accept ha
    exact .inl ⟨_, step_accept ha, .inl (inRange_of_error? he)⟩
  · exact turns_of_backtrack hs (error?_of_fail hf) (step_fail hf)
  · rw [next?_eq_some_iff.2 ⟨he, ht⟩] at hn
    cases hn
  · have he : m.error? limit s.here = none := error?_of_targets ht
    by_cases hseen : s.here ∈ s.seen
    · exact turns_of_backtrack hs he (step_seen ht hseen)
    · refine .inr ⟨inRange_of_error? he, _, step_fresh ht hseen, ?_, ?_⟩
      · have hmem : ∀ p ∈ [q, r], p.sp ≤ m.text.size := by
          rw [← ht]
          exact fun p => sp_le_of_mem_targets hsp
        intro p hp
        simp only [List.mem_cons] at hp
        rcases hp with rfl | rfl | hp
        · exact hmem p (by simp)
        · exact hmem p (by simp)
        · exact hs p (List.mem_cons_of_mem _ hp)
      · have := fresh_insert_lt ht hsp hseen
        simp only [load, List.length_cons]
        omega

/-- A glide that ends is not longer than `L` if one of this length leads out of range or circles. -/
private theorem length_le_of_end {L k : Nat} (hL : ∀ q, m.glide limit L p = some q → m.InRange q → m.Circles limit p)
    (hk : m.glide limit k p = some q) (hn : m.next? limit q = none) : k ≤ L ∧ (m.InRange q → k < L) := by
  have hcircles : ¬m.Circles limit p := by
    intro h
    apply h (k + 1)
    rw [glide_add, hk, Option.bind_some, glide, hn]
    rfl
  have hle : k ≤ L := by
    by_contra hlt
    obtain ⟨r, hr, hq⟩ := glide_of_le (by rw [hk]; exact nofun) (show L ≤ k by omega)
    rw [hk, show k - L = k - L - 1 + 1 by omega] at hq
    exact hcircles (hL r hr (inRange_of_glide hq))
  refine ⟨hle, fun hr => Nat.lt_of_le_of_ne hle ?_⟩
  rintro rfl
  exact hcircles (hL q hk hr)

/-- If a glide of length `L` leads out of range or circles, then a run of the given length has ended, but for a last
step out of range, or it comes to a circle and never ends. -/
theorem run_ends_or_never {L : Nat}
    (hL : ∀ p q, p.sp ≤ m.text.size → m.glide limit L p = some q → m.InRange q → m.Circles limit p)
    (hs : m.InText s) :
    (∃ answer, m.run limit (L * (m.load s + 1)) s = some answer) ∨
      (∃ pc, m.run limit (L * (m.load s + 1) + 1) s = some (.error (.outOfRange pc))) ∨
      (∃ p, m.Circles limit p) ∧ ∀ n, m.run limit n s = none := by
  induction hload : m.load s using Nat.strong_induction_on generalizing s with
  | _ load ih =>
    subst hload
    have hsp := hs s.here (List.mem_cons_self ..)
    -- a glide that never ends is the whole run; any other one ends at a point where the run turns
    by_cases hc : m.Circles limit s.here
    · exact .inr (.inr ⟨⟨s.here, hc⟩, run_of_circles hc⟩)
    obtain ⟨n, hn⟩ : ∃ n, m.glide limit n s.here = none := by
      simpa [Circles] using hc
    obtain ⟨k, q, hk, hq⟩ := exists_end hn
    obtain ⟨hle, hlt⟩ := length_le_of_end (fun q => hL s.here q hsp) hk hq
    have hin : m.InText { s with here := q } := by
      intro p hp
      rcases List.mem_cons.1 hp with rfl | hp
      · exact glide_sp_le hsp hk
      · exact hs p (List.mem_cons_of_mem _ hp)
    have hrun := run_of_glide hk
    have hbound : L ≤ L * (m.load s + 1) := Nat.le_mul_of_pos_right L (Nat.succ_pos _)
    rcases turns_of_next? hin hq with ⟨answer, hstep, hr | ⟨pc, rfl⟩⟩ | ⟨hr, s', hstep, hin', hload⟩
    · have := (hrun 1).trans (run_of_ended hstep)
      exact .inl ⟨_, run_mono this (by have := hlt hr; omega)⟩
    · have := (hrun 1).trans (run_of_ended hstep)
      exact .inr (.inl ⟨pc, run_mono this (by omega)⟩)
    · -- the glide and the turn take no more than `L` steps, and the load has become smaller
      have hgo : ∀ n, m.run limit (k + (n + 1)) s = m.run limit n s' :=
        fun n => (hrun (n + 1)).trans (run_of_going hstep)
      have hsum : L * (m.load s' + 1) + L ≤ L * (m.load s + 1) := by
        rw [← Nat.mul_succ]
        exact Nat.mul_le_mul_left L (Nat.succ_le_succ hload)
      have hk' := hlt hr
      rcases ih _ hload hin' rfl with ⟨answer, ha⟩ | ⟨pc, ha⟩ | ⟨hcircles, hnone⟩
      · exact .inl ⟨answer, run_mono ((hgo _).trans ha) (by omega)⟩
      · exact .inr (.inl ⟨pc, run_mono ((hgo _).trans ha) (by omega)⟩)
      · refine .inr (.inr ⟨hcircles, fun n => ?_⟩)
        by_contra hne
        obtain ⟨answer, ha⟩ := Option.ne_none_iff_exists'.1 hne
        have := run_mono ha (show n ≤ k + (n + 1) by omega)
        rw [hgo, hnone] at this
        cases this

/-! ### Arbitrary programs -/

private theorem circles_of_long {p q : Point} (hp : p.sp ≤ m.text.size)
    (h : m.glide limit (m.program.size * (m.text.size + 1)) p = some q) (hq : m.InRange q) :
    m.Circles limit p := by
  let L := m.program.size * (m.text.size + 1)
  have hpoint : ∀ i : Fin (L + 1), ∃ r : Point, m.glide limit i p = some r ∧ m.InRange r ∧ r.sp ≤ m.text.size := by
    intro i
    obtain ⟨r, hr, hrest⟩ := glide_of_le (by rw [h]; exact nofun) (Nat.le_of_lt_succ i.isLt)
    refine ⟨r, hr, ?_, glide_sp_le hp hr⟩
    rw [h] at hrest
    cases hd : L - i with
    | zero =>
      rw [hd] at hrest
      cases hrest
      exact hq
    | succ d =>
      rw [hd] at hrest
      exact inRange_of_glide hrest
  choose f hf hr hsp using hpoint
  -- more points than there are addresses and positions
  have hmaps : ∀ i ∈ Finset.univ, ((f i).pc.toNat, (f i).sp) ∈
      Finset.range m.program.size ×ˢ Finset.range (m.text.size + 1) := by
    intro i _
    have := hr i
    have := hsp i
    unfold InRange at *
    simp only [Finset.mem_product, Finset.mem_range]
    omega
  obtain ⟨i, -, j, -, hne, heq⟩ := Finset.exists_ne_map_eq_of_card_lt_of_maps_to (by simp [L]) hmaps
  have hij : f i = f j := by
    have hi := (hr i).1
    have hj := (hr j).1
    rw [Prod.mk.injEq] at heq
    cases hfi : f i
    cases hfj : f j
    simp_all
    omega
  have hi := hf i
  rw [hij] at hi
  rcases Nat.lt_or_gt_of_ne (Fin.val_ne_of_ne hne) with hlt | hgt
  · exact circles_of_repeat hi (hf j) hlt
  · exact circles_of_repeat (hf j) hi hgt

theorem load_init (m : Machine) : m.load {} = 2 * m.splits * (m.text.size + 1) := by
  have : m.fresh {} = m.splitPoints.card := by
    rw [fresh, Finset.filter_true_of_mem]
    exact fun _ _ => Std.TreeSet.not_mem_emptyc
  rw [load, this, card_splitPoints, Nat.mul_assoc]
  rfl

theorem inText_init (m : Machine) : m.InText {} := by
  intro p hp
  rw [List.mem_singleton.1 hp]
  exact Nat.zero_le _

/-- A run that ends does so within `stepBound` steps. -/
private theorem run_stepBound (h : m.Halts limit) : ∃ answer, m.run limit m.stepBound {} = some answer := by
  obtain ⟨n, answer, hn⟩ := h
  rcases run_ends_or_never (fun _ _ => circles_of_long) m.inText_init with ⟨answer, ha⟩ | ⟨pc, ha⟩ | ⟨-, hnone⟩
  · rw [load_init] at ha
    exact ⟨answer, run_mono ha (Nat.le_succ _)⟩
  · rw [load_init] at ha
    exact ⟨_, ha⟩
  · rw [hnone] at hn
    cases hn

/-! ### Answers -/

/-- Without a bound on the steps, the answer of a run that ends is the answer to the question. -/
theorem accepts_of_run {n : Nat} {answer : Except EvalError Bool} (h : m.run limit n {} = some answer) :
    m.accepts { limit } = answer := by
  obtain ⟨answer', ha⟩ := run_stepBound ⟨n, answer, h⟩
  have hmax := run_mono h (Nat.le_max_left n m.stepBound)
  rw [run_mono ha (Nat.le_max_right n m.stepBound), Option.some.injEq] at hmax
  simp [accepts, ha, hmax]

theorem accepts_of_run_le {n : Nat} {k : Int} {answer : Except EvalError Bool}
    (h : m.run limit n {} = some answer) (hk : n ≤ k) : m.accepts { limit, maxSteps := some k } = answer := by
  simp [accepts, run_mono h (show n ≤ k.toNat by omega)]

theorem exists_run_eq_accepts {config : Config} (hs : config.strategy = .depthFirst) (hh : m.Halts config.limit)
    (hl : ∀ k, m.accepts config ≠ .error (.stepLimit k)) :
    ∃ n, m.run config.limit n {} = some (m.accepts config) := by
  obtain ⟨strategy, maxSteps, limit⟩ := config
  cases hs
  cases maxSteps with
  | none =>
    obtain ⟨answer, ha⟩ := run_stepBound hh
    exact ⟨m.stepBound, by simp [accepts, ha]⟩
  | some k =>
    cases hr : m.run limit k.toNat {} with
    | none => exact absurd (by simp [accepts, hr]) (hl k)
    | some answer => exact ⟨k.toNat, by simp [accepts, hr]⟩

end PatternMachine.Machine
