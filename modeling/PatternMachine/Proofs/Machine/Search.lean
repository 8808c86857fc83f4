import PatternMachine.Proofs.Machine.Halting

/-!
# The search and the points that it reaches

A run looks for a point that decides the question: one that accepts, or at which an error comes up.  A split that
has been followed before is given up, although its second branch may still be pending.  No way to a deciding point
is lost by that (`Machine.Tracks`): from the current point, or from a pending one, it can still be reached without
leaving from a split that has been followed.  For if the way leads through the split that is followed now, its last
visit there goes on at one of the two branches.

So a run that ends finds such a point exactly if there is one (`Machine.accepts_reaches`).
-/

namespace PatternMachine.Machine

variable {m : Machine} {limit : Int} {p q r : Point} {s s' : State} {e : EvalError}
  {seen : Std.TreeSet Point Point.compare}

/-! ### Ways that avoid splits -/

/-- The question is decided at the point: it accepts, or an error comes up. -/
def Decides (m : Machine) (limit : Int) (p : Point) : Prop :=
  m.move p = .accept ∨ ∃ e, m.error? limit p = some e

/-- The second point comes after the first one in any number of steps, none of which leaves from a point of
`seen`. -/
inductive Avoids (m : Machine) (limit : Int) (seen : Std.TreeSet Point Point.compare) : Point → Point → Prop where
  | refl (p : Point) : Avoids m limit seen p p
  | head {p q r : Point} : p ∉ seen → m.Leads limit p q → Avoids m limit seen q r → Avoids m limit seen p r

private theorem Avoids.tail (h : m.Avoids limit seen p q) (hq : q ∉ seen) (hl : m.Leads limit q r) :
    m.Avoids limit seen p r := by
  induction h with
  | refl => exact .head hq hl (.refl r)
  | head hp hpq _ ih => exact .head hp hpq (ih hq hl)

private theorem Reaches.avoids (h : m.Reaches limit p q) : m.Avoids limit ∅ p q := by
  induction h with
  | refl => exact .refl p
  | tail _ hl ih => exact ih.tail Std.TreeSet.not_mem_emptyc hl

private theorem not_decides (he : m.error? limit p = none) (ha : m.move p ≠ .accept) : ¬m.Decides limit p := by
  rintro (h | ⟨e, h⟩)
  · exact ha h
  · rw [he] at h
    cases h

/-- A way to a deciding point makes a step if it begins elsewhere. -/
private theorem Avoids.step (h : m.Avoids limit seen p q) (hp : ¬m.Decides limit p) (hq : m.Decides limit q) :
    p ∉ seen ∧ ∃ y, m.Leads limit p y ∧ m.Avoids limit seen y q := by
  cases h with
  | refl => exact absurd hq hp
  | head hs hl ha => exact ⟨hs, _, hl, ha⟩

/-- A way either avoids one more point, or what follows the last visit there does. -/
private theorem Avoids.insert (h : m.Avoids limit seen p q) (x : Point) :
    m.Avoids limit (seen.insert x) p q ∨ ∃ y, m.Leads limit x y ∧ m.Avoids limit (seen.insert x) y q := by
  induction h with
  | refl => exact .inl (.refl _)
  | @head p y q hp hl _ ih =>
    rcases ih with ih | ih
    · by_cases hx : p = x
      · subst hx
        exact .inr ⟨y, hl, ih⟩
      · refine .inl (.head ?_ hl ih)
        rw [mem_insert_point]
        exact not_or.2 ⟨hx, hp⟩
    · exact .inr ih

/-! ### What a run keeps track of -/

/-- The points of a state can be reached, and from one of them every deciding point that can be reached, without
leaving from a split that has been followed. -/
structure Tracks (m : Machine) (limit : Int) (s : State) : Prop where
  sound : ∀ p ∈ s.here :: s.pending, m.Reaches limit ⟨0, 0⟩ p
  complete : ∀ q, m.Reaches limit ⟨0, 0⟩ q → m.Decides limit q →
    ∃ p ∈ s.here :: s.pending, m.Avoids limit s.seen p q

/-- What an answer says about the points that can be reached. -/
def Answers (m : Machine) (limit : Int) : Except EvalError Bool → Prop
  | .ok true => ∃ q, m.Reaches limit ⟨0, 0⟩ q ∧ m.move q = .accept
  | .ok false => ∀ q, m.Reaches limit ⟨0, 0⟩ q → ¬m.Decides limit q
  | .error e => ∃ q, m.Reaches limit ⟨0, 0⟩ q ∧ m.error? limit q = some e

/-- What holds of a state, or of the answer, after a step. -/
def Holds (m : Machine) (limit : Int) : Progress → Prop
  | .going s => m.Tracks limit s
  | .ended answer => m.Answers limit answer

theorem tracks_init (m : Machine) (limit : Int) : m.Tracks limit {} where
  sound p hp := by
    rw [List.mem_singleton.1 hp]
    exact .refl _
  complete q hq _ := ⟨⟨0, 0⟩, List.mem_cons_self .., hq.avoids⟩

/-- A branch may be given up if every way to a deciding point leaves from a split that has been followed. -/
private theorem holds_backtrack (h : m.Tracks limit s)
    (hdead : ∀ q, m.Decides limit q → ¬m.Avoids limit s.seen s.here q) : m.Holds limit s.backtrack := by
  have hway : ∀ q, m.Reaches limit ⟨0, 0⟩ q → m.Decides limit q → ∃ p ∈ s.pending, m.Avoids limit s.seen p q := by
    intro q hq hd
    obtain ⟨p, hp, ha⟩ := h.complete q hq hd
    rcases List.mem_cons.1 hp with rfl | hp
    · exact absurd ha (hdead q hd)
    · exact ⟨p, hp, ha⟩
  rw [State.backtrack]
  split
  · rename_i hnil
    intro q hq hd
    obtain ⟨p, hp, -⟩ := hway q hq hd
    rw [hnil] at hp
    cases hp
  · rename_i hcons
    rw [hcons] at hway
    exact ⟨fun p hp => h.sound p (List.mem_cons_of_mem _ (hcons ▸ hp)), hway⟩

private theorem tracks_single (h : m.Tracks limit s) (he : m.error? limit s.here = none)
    (ht : (m.move s.here).targets s.here = [q]) : m.Tracks limit { s with here := q } where
  sound p hp := by
    rcases List.mem_cons.1 hp with hp | hp
    · rw [hp]
      exact (h.sound s.here (List.mem_cons_self ..)).tail ⟨he, by rw [ht]; exact List.mem_singleton_self q⟩
    · exact h.sound p (List.mem_cons_of_mem _ hp)
  complete x hx hd := by
    have hne : m.move s.here ≠ .accept := fun ha => by simp [ha, Move.targets] at ht
    obtain ⟨p, hp, ha⟩ := h.complete x hx hd
    rcases List.mem_cons.1 hp with rfl | hp
    · obtain ⟨-, y, hy, hyx⟩ := ha.step (not_decides he hne) hd
      rw [Leads, ht, List.mem_singleton] at hy
      exact ⟨q, List.mem_cons_self .., hy.2 ▸ hyx⟩
    · exact ⟨p, List.mem_cons_of_mem _ hp, ha⟩

private theorem not_decides_of_fork (ht : (m.move p).targets p = [q, r]) : ¬m.Decides limit p := by
  obtain ⟨first, second, hm, -, -⟩ := exists_fork ht
  exact not_decides (error?_of_targets ht) (by rw [hm]; exact nofun)

/-- The way that is lost when a split is followed goes on at one of its branches. -/
private theorem tracks_fresh (h : m.Tracks limit s) (ht : (m.move s.here).targets s.here = [q, r]) :
    m.Tracks limit { here := q, pending := r :: s.pending, seen := s.seen.insert s.here } where
  sound p hp := by
    have hl : ∀ y ∈ [q, r], m.Reaches limit ⟨0, 0⟩ y := fun y hy =>
      (h.sound s.here (List.mem_cons_self ..)).tail ⟨error?_of_targets ht, by rw [ht]; exact hy⟩
    simp only [List.mem_cons] at hp
    rcases hp with rfl | rfl | hp
    · exact hl p (by simp)
    · exact hl p (by simp)
    · exact h.sound p (List.mem_cons_of_mem _ hp)
  complete x hx hd := by
    obtain ⟨p, hp, ha⟩ := h.complete x hx hd
    rcases ha.insert s.here with ha | ⟨y, hy, ha⟩
    · rcases List.mem_cons.1 hp with rfl | hp
      · have := (ha.step (not_decides_of_fork ht) hd).1
        exact absurd (mem_insert_point.2 (.inl rfl)) this
      · exact ⟨p, List.mem_cons_of_mem _ (List.mem_cons_of_mem _ hp), ha⟩
    · have hmem := hy.2
      rw [ht] at hmem
      exact ⟨y, List.mem_append_left s.pending hmem, ha⟩

private theorem holds_step (h : m.Tracks limit s) : m.Holds limit (m.step limit s) := by
  have hhere := h.sound s.here (List.mem_cons_self ..)
  rcases m.point_cases limit s.here with ⟨e, he⟩ | ha | hf | ⟨q, he, ht⟩ | ⟨q, r, ht⟩
  · rw [step_error he]
    exact ⟨s.here, hhere, he⟩
  · rw [step_accept ha]
    exact ⟨s.here, hhere, ha⟩
  · rw [step_fail hf]
    refine holds_backtrack h fun q hq ha => ?_
    obtain ⟨-, y, hy, -⟩ := ha.step (not_decides (error?_of_fail hf) (by rw [hf]; exact nofun)) hq
    rw [Leads, hf] at hy
    cases hy.2
  · rw [step_single he ht]
    exact tracks_single h he ht
  · by_cases hs : s.here ∈ s.seen
    · rw [step_seen ht hs]
      exact holds_backtrack h fun q hq ha => (ha.step (not_decides_of_fork ht) hq).1 hs
    · rw [step_fresh ht hs]
      exact tracks_fresh h ht

theorem answers_of_run {n : Nat} {answer : Except EvalError Bool} (h : m.Tracks limit s)
    (hr : m.run limit n s = some answer) : m.Answers limit answer := by
  induction n generalizing s with
  | zero => cases hr
  | succ n ih =>
    have hstep := holds_step h
    rw [run] at hr
    split at hr
    · rename_i hgoing
      rw [hgoing] at hstep
      exact ih hstep hr
    · rename_i hended
      rw [hended] at hstep
      cases hr
      exact hstep

/-! ### Answers -/

theorem answers_accepts {config : Config} (hs : config.strategy = .depthFirst) (hh : m.Halts config.limit)
    (hl : ∀ k, m.accepts config ≠ .error (.stepLimit k)) : m.Answers config.limit (m.accepts config) := by
  obtain ⟨n, hn⟩ := exists_run_eq_accepts hs hh hl
  exact answers_of_run (tracks_init m config.limit) hn

private theorem error?_ne (h : m.error? limit p = some e) : e ≠ .endless ∧ ∀ k, e ≠ .stepLimit k := by
  unfold error? move Move.overflow? at h
  grind

/-- The answer of a run is none of the two that stand for a missing one. -/
theorem run_ne {n : Nat} (h : m.run limit n {} = some (.error e)) : e ≠ .endless ∧ ∀ k, e ≠ .stepLimit k := by
  obtain ⟨q, -, he⟩ := answers_of_run (tracks_init m limit) h
  exact error?_ne he

theorem maxSteps_of_accepts {config : Config} {k : Int} (hs : config.strategy = .depthFirst)
    (h : m.accepts config = .error (.stepLimit k)) : config.maxSteps = some k := by
  obtain ⟨strategy, maxSteps, limit⟩ := config
  cases hs
  cases maxSteps with
  | none =>
    cases hr : m.run limit m.stepBound {} with
    | none => simp [accepts, hr] at h
    | some answer =>
      simp only [accepts, hr, Option.getD_some] at h
      subst h
      exact absurd rfl ((run_ne hr).2 k)
  | some j =>
    cases hr : m.run limit j.toNat {} with
    | none =>
      simp only [accepts, hr, Option.getD_none] at h
      cases h
      rfl
    | some answer =>
      simp only [accepts, hr, Option.getD_some] at h
      subst h
      exact absurd rfl ((run_ne hr).2 k)

/-- The run of which there is no answer, although its steps are not bounded, is the one that never ends. -/
theorem accepts_eq_endless_iff : m.accepts { limit } = .error .endless ↔ ¬m.Halts limit := by
  constructor
  · rintro h ⟨n, answer, hn⟩
    rw [accepts_of_run hn] at h
    subst h
    exact (run_ne hn).1 rfl
  · intro h
    have hn : m.run limit m.stepBound {} = none :=
      Option.eq_none_iff_forall_ne_some.2 fun answer ha => h ⟨_, answer, ha⟩
    simp [accepts, hn]

/-- A run that ends has searched everything that can be reached: it answers no exactly if nothing there decides the
question, and its other answers, errors with their data among them, come from a point that can be reached. -/
theorem accepts_reaches (m : Machine) (config : Config) (hs : config.strategy = .depthFirst)
    (hh : m.Halts config.limit) (hl : ∀ k, m.accepts config ≠ .error (.stepLimit k)) :
    (m.accepts config = .ok false ↔ ∀ q, m.Reaches config.limit ⟨0, 0⟩ q →
      m.move q ≠ .accept ∧ m.error? config.limit q = none) ∧
    (m.accepts config = .ok true → ∃ q, m.Reaches config.limit ⟨0, 0⟩ q ∧ m.move q = .accept) ∧
    ∀ e, m.accepts config = .error e → ∃ q, m.Reaches config.limit ⟨0, 0⟩ q ∧ m.error? config.limit q = some e := by
  have hanswer := answers_accepts hs hh hl
  generalize m.accepts config = answer at hanswer
  rcases answer with e | _ | _
  · obtain ⟨q, hq, he⟩ := hanswer
    refine ⟨⟨nofun, fun h => ?_⟩, nofun, fun e' h => ?_⟩
    · rw [(h q hq).2] at he
      cases he
    · cases h
      exact ⟨q, hq, he⟩
  · refine ⟨⟨fun _ q hq => ⟨fun ha => hanswer q hq (.inl ha), ?_⟩, fun _ => rfl⟩, nofun, nofun⟩
    exact Option.eq_none_iff_forall_ne_some.2 fun e he => hanswer q hq (.inr ⟨e, he⟩)
  · obtain ⟨q, hq, ha⟩ := hanswer
    exact ⟨⟨nofun, fun h => absurd ha (h q hq).1⟩, fun _ => ⟨q, hq, ha⟩, nofun⟩

/-- A program that goes round in a circle, gives it up at the split, reads a character and jumps out of range. -/
def circling : Machine where
  program := #[.split 1 2, .jump 0, .char "a", .jump (-1)]
  text := #['a']

theorem circling_reaches : circling.Halts defaultLimit ∧ (∀ k, circling.accepts ≠ .error (.stepLimit k)) ∧
    ∃ q, circling.Reaches defaultLimit ⟨0, 0⟩ q ∧ circling.error? defaultLimit q = some (.outOfRange (-1)) := by
  have ha : circling.accepts = .error (.outOfRange (-1)) := rfl
  have hh : circling.Halts defaultLimit := ⟨6, _, rfl⟩
  have hl : ∀ k, circling.accepts ≠ .error (.stepLimit k) := fun k => by rw [ha]; exact nofun
  exact ⟨hh, hl, (accepts_reaches circling {} rfl hh hl).2.2 _ ha⟩

end PatternMachine.Machine
