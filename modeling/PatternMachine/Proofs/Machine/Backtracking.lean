import Mathlib.Logic.Relation
import PatternMachine.Proofs.Machine.Halting

/-!
# Backtracking without memory

A run follows a split once for each number of characters read, and keeps the second branches in a list.  Plain
backtracking, `Machine.Explores`, remembers nothing.  If it ends, the run gives the same answer
(`Machine.accepts_of_explores`): a split that is met again has been explored without success, since an exploration
that ends never calls for itself.  The induction is on the exploration; it says where the run stands when the
exploration of its current point has ended.
-/

namespace PatternMachine.Machine

variable {m : Machine} {limit : Int} {p q r : Point} {s s' : State} {answer answer' : Except EvalError Bool}
  {seen : Std.TreeSet Point Point.compare}

/-! ### Explorations -/

private theorem explores_error {e : EvalError} (he : m.error? limit p = some e) (h : m.Explores limit p answer) :
    answer = .error e := by
  cases h with
  | error he' =>
    rw [he, Option.some.injEq] at he'
    rw [he']
  | accept ha => rw [error?_of_accept ha] at he; cases he
  | fail hf => rw [error?_of_fail hf] at he; cases he
  | on he' _ _ => rw [he] at he'; cases he'
  | first ht _ _ | second ht _ _ => rw [error?_of_targets ht] at he; cases he

private theorem explores_end (he : m.error? limit p = none) (ht : (m.move p).targets p = [])
    (h : m.Explores limit p answer) :
    m.move p = .accept ∧ answer = .ok true ∨ m.move p = .fail ∧ answer = .ok false := by
  cases h with
  | error he' => rw [he] at he'; cases he'
  | accept ha => exact .inl ⟨ha, rfl⟩
  | fail hf => exact .inr ⟨hf, rfl⟩
  | on _ ht' _ | first ht' _ _ | second ht' _ _ => rw [ht] at ht'; cases ht'

private theorem explores_single (he : m.error? limit p = none) (ht : (m.move p).targets p = [q])
    (h : m.Explores limit p answer) : m.Explores limit q answer := by
  cases h with
  | error he' => rw [he] at he'; cases he'
  | accept hm | fail hm => rw [hm] at ht; cases ht
  | on _ ht' h =>
    rw [ht] at ht'
    cases ht'
    exact h
  | first ht' _ _ | second ht' _ _ => rw [ht] at ht'; cases ht'

private theorem explores_fork (ht : (m.move p).targets p = [q, r]) (h : m.Explores limit p answer) :
    m.Explores limit q answer ∧ answer ≠ .ok false ∨
      m.Explores limit q (.ok false) ∧ m.Explores limit r answer := by
  cases h with
  | error he => rw [error?_of_targets ht] at he; cases he
  | accept hm | fail hm => rw [hm] at ht; cases ht
  | on _ ht' _ => rw [ht] at ht'; cases ht'
  | first ht' h hne =>
    rw [ht] at ht'
    cases ht'
    exact .inl ⟨h, hne⟩
  | second ht' hq hr =>
    rw [ht] at ht'
    cases ht'
    exact .inr ⟨hq, hr⟩

/-- An exploration has one answer. -/
private theorem Explores.unique (h : m.Explores limit p answer) (h' : m.Explores limit p answer') :
    answer = answer' := by
  induction h generalizing answer' with
  | error he => exact (explores_error he h').symm
  | accept ha =>
    rcases explores_end (error?_of_accept ha) (by rw [ha]; rfl) h' with ⟨-, h⟩ | ⟨hf, -⟩
    · exact h.symm
    · rw [ha] at hf
      cases hf
  | fail hf =>
    rcases explores_end (error?_of_fail hf) (by rw [hf]; rfl) h' with ⟨ha, -⟩ | ⟨-, h⟩
    · rw [hf] at ha
      cases ha
    · exact h.symm
  | on he ht _ ih => exact ih (explores_single he ht h')
  | first ht _ hne ih =>
    rcases explores_fork ht h' with ⟨h, -⟩ | ⟨h, -⟩
    · exact ih h
    · exact absurd (ih h) hne
  | second ht _ _ ihq ihr =>
    rcases explores_fork ht h' with ⟨h, hne⟩ | ⟨-, h⟩
    · exact absurd (ihq h).symm hne
    · exact ihr h

/-- The exploration of the first point calls for that of the second. -/
def Calls (m : Machine) (limit : Int) (p q : Point) : Prop :=
  m.error? limit p = none ∧ (m.move p).targets p = [q] ∨ (∃ r, (m.move p).targets p = [q, r]) ∨
    ∃ r, (m.move p).targets p = [r, q] ∧ m.Explores limit r (.ok false)

private theorem calls_end (ht : (m.move p).targets p = []) : ¬m.Calls limit p q := by
  rintro (⟨-, h⟩ | ⟨r, h⟩ | ⟨r, h, -⟩)
  all_goals
    rw [ht] at h
    cases h

private theorem calls_error {e : EvalError} (he : m.error? limit p = some e) : ¬m.Calls limit p q := by
  rintro (⟨he', -⟩ | ⟨r, ht⟩ | ⟨r, ht, -⟩)
  · rw [he] at he'
    cases he'
  all_goals
    rw [error?_of_targets ht] at he
    cases he

private theorem calls_single {x : Point} (ht : (m.move p).targets p = [q]) (h : m.Calls limit p x) : x = q := by
  rcases h with ⟨-, h⟩ | ⟨y, h⟩ | ⟨y, h, -⟩
  all_goals
    rw [ht] at h
    cases h
  rfl

private theorem calls_fork {x : Point} (ht : (m.move p).targets p = [q, r]) (h : m.Calls limit p x) :
    x = q ∨ x = r ∧ m.Explores limit q (.ok false) := by
  rcases h with ⟨-, h⟩ | ⟨y, h⟩ | ⟨y, h, hy⟩
  all_goals
    rw [ht] at h
    cases h
  · exact .inl rfl
  · exact .inr ⟨rfl, hy⟩

/-- An exploration that ends calls for no endless chain of others. -/
private theorem Explores.acc (h : m.Explores limit p answer) : Acc (fun q p => m.Calls limit p q) p := by
  induction h with
  | error he => exact ⟨_, fun x hx => absurd hx (calls_error he)⟩
  | accept ha => exact ⟨_, fun x hx => absurd hx (calls_end (by rw [ha]; rfl))⟩
  | fail hf => exact ⟨_, fun x hx => absurd hx (calls_end (by rw [hf]; rfl))⟩
  | on _ ht _ ih =>
    refine ⟨_, fun x hx => ?_⟩
    rw [calls_single ht hx]
    exact ih
  | first ht h hne ih =>
    refine ⟨_, fun x hx => ?_⟩
    rcases calls_fork ht hx with rfl | ⟨-, hq⟩
    · exact ih
    · exact absurd (h.unique hq) hne
  | second ht _ _ ihq ihr =>
    refine ⟨_, fun x hx => ?_⟩
    rcases calls_fork ht hx with rfl | ⟨rfl, -⟩
    · exact ihq
    · exact ihr

private theorem not_rel_self_of_acc {α : Type} {r : α → α → Prop} {a : α} (h : Acc r a) : ¬r a a := by
  induction h with
  | intro x _ ih => exact fun hx => ih x hx hx

/-- An exploration that ends does not call for itself. -/
private theorem Explores.not_transGen (h : m.Explores limit p answer) : ¬Relation.TransGen (m.Calls limit) p p :=
  fun hp => not_rel_self_of_acc h.acc.transGen hp.swap

/-- Every one of the points has been explored without success, or its exploration has called for `p`. -/
def Settled (m : Machine) (limit : Int) (seen : Std.TreeSet Point Point.compare) (p : Point) : Prop :=
  ∀ v ∈ seen, m.Explores limit v (.ok false) ∨ Relation.TransGen (m.Calls limit) v p

private theorem Settled.call (h : m.Settled limit seen p) (hc : m.Calls limit p q) : m.Settled limit seen q :=
  fun v hv => (h v hv).imp_right fun hp => hp.tail hc

private theorem Settled.insert (h : m.Settled limit seen p) (hc : m.Calls limit p q) :
    m.Settled limit (seen.insert p) q := by
  intro v hv
  rcases mem_insert_point.1 hv with rfl | hv
  · exact .inr (.single hc)
  · exact h.call hc v hv

/-! ### Runs -/

/-- From the state the run comes to one that gives up its branch with the same points pending, and the splits
followed on the way have been explored without success. -/
def GivesUp (m : Machine) (limit : Int) (s : State) : Prop :=
  ∃ n t, (∀ k, m.run limit (n + k) s = m.run limit k t) ∧ m.step limit t = t.backtrack ∧
    t.pending = s.pending ∧ ∀ v ∈ t.seen, v ∈ s.seen ∨ m.Explores limit v (.ok false)

/-- The run from the state meets the answer of an exploration. -/
def Meets (m : Machine) (limit : Int) (s : State) (answer : Except EvalError Bool) : Prop :=
  (answer = .ok false → m.GivesUp limit s) ∧ (answer ≠ .ok false → ∃ n, m.run limit n s = some answer)

private theorem meets_of_ended (h : m.step limit s = .ended answer) (hne : answer ≠ .ok false) :
    m.Meets limit s answer :=
  ⟨fun h => absurd h hne, fun _ => ⟨1, run_of_ended h⟩⟩

private theorem meets_of_backtrack (h : m.step limit s = s.backtrack) : m.Meets limit s (.ok false) :=
  ⟨fun _ => ⟨0, s, fun k => by rw [Nat.zero_add], h, rfl, fun _ hv => .inl hv⟩, fun h => absurd rfl h⟩

/-- A run meets the answer if it does so from a later state with the same points pending. -/
private theorem meets_of_run {n : Nat} (hrun : ∀ k, m.run limit (n + k) s = m.run limit k s')
    (hp : s'.pending = s.pending)
    (hseen : ∀ v ∈ s'.seen, v ∈ s.seen ∨ (answer = .ok false → m.Explores limit v (.ok false)))
    (h : m.Meets limit s' answer) : m.Meets limit s answer := by
  refine ⟨fun ha => ?_, fun ha => ?_⟩
  · obtain ⟨k, t, ht, hb, hpt, hst⟩ := h.1 ha
    refine ⟨n + k, t, fun j => ?_, hb, hpt.trans hp, fun v hv => ?_⟩
    · rw [Nat.add_assoc, hrun, ht]
    · rcases hst v hv with hv | hv
      · exact (hseen v hv).imp_right fun h => h ha
      · exact .inr hv
  · obtain ⟨k, hk⟩ := h.2 ha
    exact ⟨n + k, (hrun k).trans hk⟩

private theorem run_add_one (h : m.step limit s = .going s') (k : Nat) :
    m.run limit (1 + k) s = m.run limit k s' := by
  rw [Nat.add_comm]
  exact run_of_going h

/-- A split that has been followed is given up, rightly so. -/
private theorem meets_of_seen (h : m.Explores limit s.here answer) (ht : (m.move s.here).targets s.here = [q, r])
    (hmem : s.here ∈ s.seen) (hseen : m.Settled limit s.seen s.here) : m.Meets limit s answer := by
  have hf := (hseen s.here hmem).resolve_right h.not_transGen
  cases h.unique hf
  exact meets_of_backtrack (step_seen ht hmem)

/-- Where the current point has an exploration that ends, the run meets its answer. -/
private theorem Explores.meets (h : m.Explores limit p answer) (hs : s.here = p) (hseen : m.Settled limit s.seen p) :
    m.Meets limit s answer := by
  induction h generalizing s with
  | error he =>
    subst hs
    exact meets_of_ended (step_error he) nofun
  | accept ha =>
    subst hs
    exact meets_of_ended (step_accept ha) nofun
  | fail hf =>
    subst hs
    exact meets_of_backtrack (step_fail hf)
  | on he ht _ ih =>
    subst hs
    exact meets_of_run (run_add_one (step_single he ht)) rfl (fun v hv => .inl hv)
      (ih rfl (hseen.call (.inl ⟨he, ht⟩)))
  | @first p q r answer ht h hne ih =>
    subst hs
    by_cases hmem : s.here ∈ s.seen
    · exact meets_of_seen (.first ht h hne) ht hmem hseen
    have hcall : m.Calls limit s.here q := .inr (.inl ⟨r, ht⟩)
    have hfresh : m.step limit s = .going ⟨q, r :: s.pending, s.seen.insert s.here⟩ := step_fresh ht hmem
    obtain ⟨n, hn⟩ := (ih (s := ⟨q, r :: s.pending, s.seen.insert s.here⟩) rfl (hseen.insert hcall)).2 hne
    exact ⟨fun h => absurd h hne, fun _ => ⟨1 + n, (run_add_one hfresh n).trans hn⟩⟩
  | @second p q r answer ht hq hr ihq ihr =>
    subst hs
    by_cases hmem : s.here ∈ s.seen
    · exact meets_of_seen (.second ht hq hr) ht hmem hseen
    have hcall : m.Calls limit s.here q := .inr (.inl ⟨r, ht⟩)
    have hcall' : m.Calls limit s.here r := .inr (.inr ⟨q, ht, hq⟩)
    have hfresh : m.step limit s = .going ⟨q, r :: s.pending, s.seen.insert s.here⟩ := step_fresh ht hmem
    obtain ⟨n, t, hrun, hback, hpending, hst⟩ :=
      (ihq (s := ⟨q, r :: s.pending, s.seen.insert s.here⟩) rfl (hseen.insert hcall)).1 rfl
    -- the first branch has been given up, and the second one is next
    rw [State.backtrack, hpending] at hback
    have hgo : ∀ k, m.run limit (1 + n + 1 + k) s = m.run limit k { t with here := r, pending := s.pending } := by
      intro k
      rw [Nat.add_assoc, Nat.add_assoc, run_add_one hfresh, hrun, run_add_one hback]
    refine meets_of_run hgo rfl (fun v hv => ?_) (ihr rfl fun v hv => ?_)
    · rcases hst v hv with hv | hv
      · rcases mem_insert_point.1 hv with rfl | hv
        · exact .inr fun ha => .second ht hq (ha ▸ hr)
        · exact .inl hv
      · exact .inr fun _ => hv
    · rcases hst v hv with hv | hv
      · exact hseen.insert hcall' v hv
      · exact .inl hv

/-- If plain backtracking ends, so does the run, with the same answer. -/
theorem accepts_of_explores (m : Machine) (limit : Int) (answer : Except EvalError Bool)
    (h : m.Explores limit ⟨0, 0⟩ answer) : m.Halts limit ∧ m.accepts { limit } = answer := by
  have hmeets : m.Meets limit {} answer := h.meets rfl fun v hv => absurd hv Std.TreeSet.not_mem_emptyc
  have hrun : ∃ n, m.run limit n {} = some answer := by
    by_cases ha : answer = .ok false
    · obtain ⟨n, t, hrun, hback, hpending, -⟩ := hmeets.1 ha
      rw [State.backtrack, hpending] at hback
      exact ⟨n + 1, by rw [hrun, run_of_ended hback, ha]⟩
    · exact hmeets.2 ha
  obtain ⟨n, hn⟩ := hrun
  exact ⟨⟨n, answer, hn⟩, accepts_of_run hn⟩

/-- A program that comes to a split twice, without success, and jumps out of range after that. -/
def sharing : Machine where
  program := #[.split 1 2, .jump 3, .split 3 6, .split 4 5, .char "a", .char "b", .jump 9]
  text := #['c']

theorem sharing_accepts : sharing.Explores defaultLimit ⟨0, 0⟩ (.error (.outOfRange 9)) ∧
    sharing.Halts defaultLimit ∧ sharing.accepts = .error (.outOfRange 9) := by
  have hshared : sharing.Explores defaultLimit ⟨3, 0⟩ (.ok false) := .second rfl (.fail rfl) (.fail rfl)
  have hsecond : sharing.Explores defaultLimit ⟨2, 0⟩ (.error (.outOfRange 9)) :=
    .second rfl hshared (.on rfl rfl (.error rfl))
  have h : sharing.Explores defaultLimit ⟨0, 0⟩ (.error (.outOfRange 9)) :=
    .second rfl (.on rfl rfl hshared) hsecond
  exact ⟨h, accepts_of_explores sharing defaultLimit _ h⟩

end PatternMachine.Machine
