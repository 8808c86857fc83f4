import PatternMachine.Proofs.Machine.Search

/-!
# Longer texts

A program that does not look for the end of the line can tell a text from a longer one only where the shorter one ends:
there a branch fails that goes on reading in the longer one (`Machine.move_extend`).  The runs over the two texts may
be quite different after that, and remember different splits.  But whatever can be reached over the shorter text can be
reached over the longer one (`Machine.Reaches.extend`), and the answers of both are about what can be reached.
-/

namespace PatternMachine.Machine

variable {m : Machine} {limit : Int} {p q : Point} {e : EvalError}

/-- The machine with more text behind its own. -/
def extend (m : Machine) (more : Array Char) : Machine :=
  { m with text := m.text ++ more }

/-- At every point the same happens as over the shorter text, unless that has come to its end. -/
theorem move_extend (h : Instr.lineEnd ∉ m.program) (more : Array Char) (p : Point) :
    (m.extend more).move p = m.move p ∨ m.move p = .fail ∧ (m.extend more).move p = .read := by
  unfold move extend
  by_cases hpc : p.pc < 0
  · simp [hpc]
  · simp only [hpc, ↓reduceIte]
    cases hi : m.program[p.pc.toNat]? with
    | none => exact .inl rfl
    | some i =>
      -- up to the end of the shorter text the next character is the same in both
      by_cases hsp : p.sp < m.text.size
      · have hsize : p.sp < m.text.size + more.size := Nat.lt_add_right _ hsp
        cases i with
        | lineEnd => exact absurd (Array.mem_of_getElem? hi) h
        | _ => simp [hsp, hsize]
      · have htext : m.text[p.sp]? = none := Array.getElem?_eq_none (by omega)
        cases i with
        | char text =>
          simp only [htext]
          cases (m.text ++ more)[p.sp]? with
          | none => exact .inl rfl
          | some c =>
            by_cases hc : text = String.singleton c
            · exact .inr ⟨trivial, if_pos hc⟩
            · exact .inl (if_neg hc)
        | any =>
          simp only [hsp, ↓reduceIte]
          by_cases hmore : p.sp < (m.text ++ more).size
          · exact .inr ⟨trivial, if_pos hmore⟩
          · exact .inl (if_neg hmore)
        | lineEnd => exact absurd (Array.mem_of_getElem? hi) h
        | _ => exact .inl rfl

/-- An error at a point comes up over the longer text as well. -/
private theorem error?_extend (h : Instr.lineEnd ∉ m.program) (more : Array Char) (he : m.error? limit p = some e) :
    (m.extend more).error? limit p = some e := by
  rcases move_extend h more p with hmove | ⟨hfail, -⟩
  · rwa [error?, hmove, ← error?]
  · rw [error?_of_fail hfail] at he
    cases he

theorem Leads.extend (h : Instr.lineEnd ∉ m.program) (more : Array Char) (hl : m.Leads limit p q) :
    (m.extend more).Leads limit p q := by
  rcases move_extend h more p with hmove | ⟨hfail, -⟩
  · rwa [Leads, error?, hmove, ← error?]
  · have hmem := hl.2
    rw [hfail] at hmem
    cases hmem

theorem Reaches.extend (h : Instr.lineEnd ∉ m.program) (more : Array Char) (hr : m.Reaches limit p q) :
    (m.extend more).Reaches limit p q := by
  induction hr with
  | refl => exact .refl _
  | tail _ hl ih => exact ih.tail (hl.extend h more)

theorem Decides.extend (h : Instr.lineEnd ∉ m.program) (more : Array Char) (hd : m.Decides limit p) :
    (m.extend more).Decides limit p := by
  rcases hd with ha | ⟨e, he⟩
  · rcases move_extend h more p with hmove | ⟨hfail, -⟩
    · exact .inl (hmove.trans ha)
    · rw [ha] at hfail
      cases hfail
  · exact .inr ⟨e, error?_extend h more he⟩

/-- The answer of a run that ends says what can be reached. -/
private theorem answers_of_accepts {answer : Except EvalError Bool} (h : m.accepts { limit } = answer)
    (hends : answer ≠ .error .endless) : m.Answers limit answer := by
  subst h
  have hhalts : m.Halts limit := by
    by_contra hnever
    exact hends (accepts_eq_endless_iff.2 hnever)
  refine answers_accepts rfl hhalts fun k hk => ?_
  cases maxSteps_of_accepts rfl hk

/-- If a program that does not look for the end of the line matches a text, it matches every longer one, unless an error
comes up there or the run never ends; and if it does not match a longer text, no error comes up over the shorter one,
and it does not match that, unless the run never ends. -/
theorem accepts_extend (m : Machine) (h : Instr.lineEnd ∉ m.program) (more : Array Char) (limit : Int) :
    (m.accepts { limit } = .ok true → ∀ b, (m.extend more).accepts { limit } = .ok b → b = true) ∧
    ((m.extend more).accepts { limit } = .ok false → m.Halts limit → m.accepts { limit } = .ok false) := by
  -- the two runs need not go in step, so what is compared is where they could get
  have hno : (m.extend more).accepts { limit } = .ok false → ∀ q, m.Reaches limit ⟨0, 0⟩ q → ¬m.Decides limit q := by
    intro hfalse q hq hd
    have hanswer := answers_of_accepts hfalse nofun
    exact hanswer q (hq.extend h more) (hd.extend h more)
  constructor
  · intro htrue b hb
    obtain ⟨q, hq, ha⟩ := answers_of_accepts htrue nofun
    cases b with
    | true => rfl
    | false => exact absurd (.inl ha) (hno hb q hq)
  · intro hfalse hhalts
    have hends : m.accepts { limit } ≠ .error .endless := mt accepts_eq_endless_iff.1 (not_not_intro hhalts)
    have hanswer := answers_of_accepts rfl hends
    generalize m.accepts { limit } = answer at hanswer
    rcases answer with e | _ | _
    · obtain ⟨q, hq, he⟩ := hanswer
      exact absurd (.inr ⟨e, he⟩) (hno hfalse q hq)
    · rfl
    · obtain ⟨q, hq, ha⟩ := hanswer
      exact absurd (.inl ha) (hno hfalse q hq)

/-- A program that skips as many characters as it can before it reads one; with more text it begins further on. -/
def skipping (text : Array Char) : Machine where
  program := #[.split 1 3, .any, .jump 0, .char "b", .accept]
  text

theorem skipping_extend :
    (skipping #['a', 'b']).accepts = .ok true ∧
    (∀ b, ((skipping #['a', 'b']).extend #['a', 'b']).accepts = .ok b → b = true) ∧
    ((skipping #['a']).extend #['c']).accepts = .ok false ∧ (skipping #['a']).accepts = .ok false := by
  have hend (text : Array Char) : Instr.lineEnd ∉ (skipping text).program := by
    simp [skipping]
  have htrue : (skipping #['a', 'b']).accepts = .ok true := rfl
  have hfalse : ((skipping #['a']).extend #['c']).accepts = .ok false := rfl
  have hhalts : (skipping #['a']).Halts defaultLimit := ⟨12, .ok false, rfl⟩
  have hlonger := (accepts_extend (skipping #['a', 'b']) (hend _) #['a', 'b'] defaultLimit).1 htrue
  have hshorter := (accepts_extend (skipping #['a']) (hend _) #['c'] defaultLimit).2 hfalse hhalts
  exact ⟨htrue, hlonger, hfalse, hshorter⟩

end PatternMachine.Machine
