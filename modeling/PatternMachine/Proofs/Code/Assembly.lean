import PatternMachine.Code.Generator
import PatternMachine.Code.Layout

/-!
# The generator lays out the code

Doing the task of a pattern adds the code of the pattern as it is laid out, behind the instructions that are there
and whatever tasks come next; if there is no room for the code, the generator comes to the limit.  `Builds` says both,
and is closed under doing one thing after the other, so the induction is on the pattern alone (`builds_node`).  A
destination that is left open is set in the first of the instructions added since (`Assembler.redirect_extend`), so
nothing before them changes.
-/

namespace PatternMachine

open Generator (drain)

namespace Assembler

variable {asm : Assembler} {l l' : List Instr}

/-- The program with instructions added at its end. -/
def extend (asm : Assembler) (l : List Instr) : Assembler :=
  { asm with code := asm.code ++ l.toArray, pc := asm.pc + l.length }

/-- The location counter is at the end of the program. -/
def Aligned (asm : Assembler) : Prop :=
  asm.pc = asm.code.size

@[simp] theorem pc_extend : (asm.extend l).pc = asm.pc + l.length := rfl

@[simp] theorem limit_extend : (asm.extend l).limit = asm.limit := rfl

private theorem extend_nil : asm.extend [] = asm := by
  simp [extend]

theorem extend_extend : (asm.extend l).extend l' = asm.extend (l ++ l') := by
  simp [extend, Nat.add_assoc]

theorem Aligned.extend (h : asm.Aligned) : (asm.extend l).Aligned := by
  unfold Aligned at h
  simp [Aligned, Assembler.extend, h]

theorem push_of_lt (h : (asm.pc : Int) < asm.limit) (i : Instr) : asm.push i = .ok (asm.extend [i]) := by
  rw [push, if_neg (by omega)]
  simp [extend]

theorem push_of_le (h : asm.limit ≤ asm.pc) (i : Instr) : asm.push i = .error .counterOverflow := by
  rw [push, if_pos h]

private theorem modify_append_cons {α : Type} (pre post : List α) (x : α) (f : α → α) :
    (pre ++ x :: post).modify pre.length f = pre ++ f x :: post := by
  induction pre with
  | nil => rfl
  | cons y pre ih => simp [ih]

/-- Setting a destination in the first of the instructions added. -/
theorem redirect_extend {ε : Type} {i : Instr} {o : Opcode} (h : asm.Aligned) (ho : i.opcode = o) (fault : ε)
    (new : Targets) :
    (asm.extend (i :: l)).redirect asm.pc (some o) fault new = .ok (asm.extend (i.retarget new :: l)) := by
  have hi : (asm.code ++ (i :: l).toArray)[asm.pc]? = some i := by
    rw [h, Array.getElem?_append_right (Nat.le_refl _)]
    simp
  have hm : (asm.code ++ (i :: l).toArray).modify asm.pc (·.retarget new) =
      asm.code ++ (i.retarget new :: l).toArray := by
    apply Array.toList_inj.1
    have := modify_append_cons asm.code.toList l i (·.retarget new)
    simpa [h.symm] using this
  simp only [redirect, extend, hi, ho, Option.all_some, decide_true, ↓reduceIte, hm, List.length_cons]

private theorem settle_redirect {i : Instr} {o : Opcode} (h : asm.Aligned) (ho : i.opcode = o) (fault : CodeError)
    (new : Targets) :
    (asm.extend (i :: l)).settle ((asm.extend (i :: l)).redirect asm.pc (some o) fault new) =
      { asm := asm.extend (i.retarget new :: l) } := by
  rw [redirect_extend h ho]
  rfl

end Assembler

/-! ### The location counter -/

namespace Assembler

variable {asm asm' : Assembler} {i : Instr}

theorem Aligned.push (h : asm.Aligned) (hp : asm.push i = .ok asm') : asm'.Aligned := by
  unfold Aligned at *
  rw [Assembler.push] at hp
  split at hp
  · cases hp
  · cases hp
    simp [h]

theorem Aligned.redirect {ε : Type} {address : Nat} {expected : Option Opcode} {fault : ε} {new : Targets}
    (h : asm.Aligned) (hr : asm.redirect address expected fault new = .ok asm') : asm'.Aligned := by
  unfold Aligned at *
  rw [Assembler.redirect] at hr
  repeat' split at hr
  all_goals cases hr
  simp [h]

private theorem Aligned.settle {r : Except CodeError Assembler} (h : asm.Aligned)
    (hr : ∀ asm', r = .ok asm' → asm'.Aligned) : (asm.settle r).asm.Aligned := by
  cases r with
  | ok asm' => exact hr asm' rfl
  | error e => exact h

private theorem Aligned.pushThen {next : List Task} (h : asm.Aligned) : (asm.pushThen i next).asm.Aligned := by
  unfold Assembler.pushThen
  split
  · rename_i hp
    exact h.push hp
  · exact h

/-- Whatever a task does, the location counter stays at the end of the program. -/
theorem Aligned.perform (h : asm.Aligned) (t : Task) : (t.perform asm).asm.Aligned := by
  cases t with
  | node p =>
    cases p with
    | plus _ | seq _ | hole => exact h
    | _ => exact h.pushThen
  | elseBranch split second =>
    simp only [Task.perform, Assembler.jumpOver]
    split
    · exact h
    · rename_i hp
      have hpush := h.push hp
      split
      · rename_i hr
        exact hpush.redirect hr
      · exact hpush
  | exit jump | skip split => exact h.settle fun _ hr => h.redirect hr
  | again start => exact h.pushThen
  | loop start =>
    simp only [Task.perform, Assembler.closeLoop]
    split
    · exact h
    · rename_i hp
      have hpush := h.push hp
      exact hpush.settle fun _ hr => hpush.redirect hr

theorem Aligned.drain (h : asm.Aligned) (agenda : List Task) : (drain asm agenda).1.asm.Aligned := by
  fun_induction Generator.drain asm agenda with
  | case1 => exact h
  | case2 asm t rest out e he => exact h.perform t
  | case3 asm t rest out he ih => exact ih (h.perform t)

end Assembler

/-! ### Single tasks -/

/-- The task adds `n` instructions, if there is room for them, and leaves the rest to the tasks `next`; if there is
not, the location counter has come to its limit. -/
structure Adds (asm : Assembler) (t : Task) (n : Nat) (asm₁ : Assembler) (next : List Task) : Prop where
  pc_eq : asm₁.pc = asm.pc + n
  limit_eq : asm₁.limit = asm.limit
  fits : n = 0 ∨ (asm.pc + n : Int) ≤ asm.limit → t.perform asm = { asm := asm₁, next }
  full : n ≠ 0 → asm.limit < asm.pc + n → (t.perform asm).fault = some .counterOverflow

namespace Adds

variable {asm asm₁ : Assembler} {next : List Task} {t : Task} {l l' : List Instr} {n : Nat}

/-- There is always room for a task that adds nothing. -/
theorem still (hpc : asm₁.pc = asm.pc) (hlimit : asm₁.limit = asm.limit) (ht : t.perform asm = { asm := asm₁, next }) :
    Adds asm t 0 asm₁ next where
  pc_eq := hpc
  limit_eq := hlimit
  fits _ := ht
  full h0 := absurd rfl h0

theorem push {i : Instr} (ht : t.perform asm = asm.pushThen i next) : Adds asm t 1 (asm.extend [i]) next where
  pc_eq := rfl
  limit_eq := rfl
  fits hroom := by rw [ht, Assembler.pushThen, Assembler.push_of_lt (by omega)]
  full _ hlt := by rw [ht, Assembler.pushThen, Assembler.push_of_le (by omega)]

/-- The split of an option leads behind its body. -/
private theorem skip {first second : Int} (ha : asm.Aligned) :
    Adds (asm.extend (.split first second :: l)) (.skip asm.pc) 0
      (asm.extend (.split first (asm.pc + l.length + 1 : Nat) :: l)) [] :=
  still rfl rfl (Assembler.settle_redirect ha rfl _ _)

/-- The jump back of a loop, behind which the split at its start leads from now on. -/
private theorem closeLoop {first second : Int} (ha : asm.Aligned) :
    Adds (asm.extend (.split first second :: l)) (.loop asm.pc) 1
      (asm.extend (.split first (asm.pc + l.length + 2 : Nat) :: (l ++ [.jump asm.pc]))) [] := by
  refine ⟨by simp [Nat.add_assoc], rfl, fun hroom => ?_, fun _ hlt => ?_⟩
  · simp only [Task.perform, Assembler.closeLoop]
    rw [Assembler.push_of_lt (by omega), Assembler.extend_extend]
    exact (Assembler.settle_redirect ha rfl _ _).trans (by simp [Instr.retarget, Nat.add_assoc])
  · rw [Task.perform, Assembler.closeLoop, Assembler.push_of_le (by omega)]

/-- The jump over the second branch of an alternation, behind which its split leads from now on. -/
theorem jumpOver {first d : Int} {second : Pattern} (ha : asm.Aligned) :
    Adds (asm.extend (.split first d :: l)) (.elseBranch asm.pc second) 1
      (asm.extend (.split first (asm.pc + l.length + 2 : Nat) :: (l ++ [.jump 0])))
      [.node second, .exit (asm.pc + l.length + 1)] := by
  refine ⟨by simp [Nat.add_assoc], rfl, fun hroom => ?_, fun _ hlt => ?_⟩
  · simp only [Task.perform, Assembler.jumpOver]
    rw [Assembler.push_of_lt (by omega), Assembler.extend_extend]
    dsimp only [List.cons_append]
    rw [Assembler.redirect_extend (o := .split) (i := .split first d) ha rfl]
    simp [Instr.retarget, Nat.add_assoc]
  · rw [Task.perform, Assembler.jumpOver, Assembler.push_of_le (by omega)]

/-- The jump over the second branch of an alternation leads behind it. -/
private theorem exit {target : Int} (ha : asm.Aligned) :
    Adds (asm.extend (l ++ .jump target :: l')) (.exit (asm.pc + l.length)) 0
      (asm.extend (l ++ .jump (asm.pc + l.length + l'.length + 1 : Nat) :: l')) [] := by
  rw [← Assembler.extend_extend, ← Assembler.extend_extend]
  exact still rfl rfl (Assembler.settle_redirect ha.extend rfl _ _)

end Adds

/-! ### Doing tasks -/

/-- The tasks turn one program into the other, if there is room for it, whatever is to be done afterwards; if there is
not, the location counter comes to its limit. -/
structure Builds (asm : Assembler) (tasks : List Task) (asm' : Assembler) : Prop where
  pc_le : asm.pc ≤ asm'.pc
  limit_eq : asm'.limit = asm.limit
  fits : asm'.pc = asm.pc ∨ (asm'.pc : Int) ≤ asm.limit → ∀ rest, drain asm (tasks ++ rest) = drain asm' rest
  full : asm'.pc ≠ asm.pc → asm.limit < asm'.pc → ∀ rest, (drain asm (tasks ++ rest)).2 = some .counterOverflow

namespace Builds

variable {asm asm₁ asm₂ asm' : Assembler} {ts us next : List Task} {t : Task} {l l' : List Instr} {n : Nat}

private theorem refl (asm : Assembler) : Builds asm [] asm where
  pc_le := Nat.le_refl _
  limit_eq := rfl
  fits _ _ := rfl
  full h := absurd rfl h

private theorem trans (h : Builds asm ts asm₁) (h' : Builds asm₁ us asm₂) : Builds asm (ts ++ us) asm₂ := by
  have hpc := h.pc_le
  have hpc' := h'.pc_le
  have hlimit := h.limit_eq
  refine ⟨by omega, h'.limit_eq.trans hlimit, fun hroom rest => ?_, fun hne hlt rest => ?_⟩
  · rw [List.append_assoc, h.fits (by omega), h'.fits (by omega)]
  · -- there may be no room for what `us` adds only
    by_cases hroom : asm₁.pc = asm.pc ∨ (asm₁.pc : Int) ≤ asm.limit
    · rw [List.append_assoc, h.fits hroom, h'.full (by omega) (by omega)]
    · rw [List.append_assoc, h.full (by omega) (by omega)]

private theorem task (ht : Adds asm t n asm₁ next) (h : Builds asm₁ next asm') : Builds asm [t] asm' := by
  have hpc := ht.pc_eq
  have hlimit := ht.limit_eq
  have hpc' := h.pc_le
  refine ⟨by omega, h.limit_eq.trans hlimit, fun hroom rest => ?_, fun hne hlt rest => ?_⟩
  · rw [List.singleton_append, drain, ht.fits (by omega)]
    exact h.fits (by omega) rest
  · rw [List.singleton_append, drain]
    by_cases hroom : n = 0 ∨ (asm.pc + n : Int) ≤ asm.limit
    · rw [ht.fits hroom]
      exact h.full (by omega) (by omega) rest
    · rw [ht.full (by omega) (by omega)]

/-- A task that leaves nothing to others. -/
private theorem single (ht : Adds asm t n asm' []) : Builds asm [t] asm' :=
  task ht (refl asm')

/-- The two branches of an alternation, between its split and the end. -/
private theorem branches {first : Int} {second : Pattern} (ha : asm.Aligned)
    (hfirst : Builds (asm.extend [.split first 0]) ts (asm.extend (.split first 0 :: l)))
    (hsecond : Builds (asm.extend (.split first (asm.pc + l.length + 2 : Nat) :: (l ++ [.jump 0]))) [.node second]
      (asm.extend (.split first (asm.pc + l.length + 2 : Nat) :: (l ++ .jump 0 :: l')))) :
    Builds (asm.extend [.split first 0]) (ts ++ [.elseBranch asm.pc second])
      (asm.extend (.split first (asm.pc + l.length + 2 : Nat) ::
        (l ++ .jump (asm.pc + l.length + l'.length + 2 : Nat) :: l'))) := by
  have hexit : Builds (asm.extend (.split first (asm.pc + l.length + 2 : Nat) :: (l ++ .jump 0 :: l')))
      [.exit (asm.pc + l.length + 1)] (asm.extend (.split first (asm.pc + l.length + 2 : Nat) ::
        (l ++ .jump (asm.pc + (l.length + 1) + l'.length + 1 : Nat) :: l'))) :=
    .single (.exit (l := .split first (asm.pc + l.length + 2 : Nat) :: l) ha)
  rw [show asm.pc + (l.length + 1) + l'.length + 1 = asm.pc + l.length + l'.length + 2 by omega] at hexit
  exact hfirst.trans (.task (.jumpOver ha) (hsecond.trans hexit))

end Builds

/-! ### Patterns -/

mutual

/-- The task of a pattern adds the code of the pattern. -/
theorem builds_node (p : Pattern) (hc : p.isComplete) (asm : Assembler) (ha : asm.Aligned) :
    Builds asm [.node p] (asm.extend (p.code asm.pc)) := by
  cases p with
  | char _ | any | lineStart | lineEnd => exact .single (.push rfl)
  | plus body =>
    refine .task (.still rfl rfl rfl) ?_
    have hbody := builds_node body hc asm ha
    have h := hbody.trans (.single (.push (t := .again asm.pc) rfl))
    simpa [Assembler.extend_extend, Pattern.length_code, Pattern.code] using h
  | star body =>
    refine .task (.push rfl) ?_
    have hbody := builds_node body hc (asm.extend [.split (asm.pc + 1) 0]) ha.extend
    rw [Assembler.extend_extend] at hbody
    have h := hbody.trans (.single (.closeLoop ha))
    simpa [Assembler.extend_extend, Pattern.length_code, Pattern.code] using h
  | opt body =>
    refine .task (.push rfl) ?_
    have hbody := builds_node body hc (asm.extend [.split (asm.pc + 1) 0]) ha.extend
    rw [Assembler.extend_extend] at hbody
    have h := hbody.trans (.single (.skip ha))
    simpa [Assembler.extend_extend, Pattern.length_code, Pattern.code] using h
  | alt first second =>
    rw [Pattern.isComplete, Bool.and_eq_true] at hc
    -- the split is open while the first branch is added, and the jump while the second one is
    refine .task (.push rfl) ?_
    have hfirst := builds_node first hc.1 (asm.extend [.split (asm.pc + 1) 0]) ha.extend
    rw [Assembler.extend_extend] at hfirst
    have hsecond := builds_node second hc.2 (asm.extend (.split (asm.pc + 1)
      (asm.pc + (first.code (asm.pc + 1)).length + 2 : Nat) :: (first.code (asm.pc + 1) ++ [.jump 0]))) ha.extend
    rw [Assembler.extend_extend, List.cons_append, List.append_assoc] at hsecond
    have h := Builds.branches ha hfirst hsecond
    simpa [Assembler.extend_extend, Pattern.length_code, Pattern.code, Nat.add_assoc] using h
  | seq items => exact .task (.still rfl rfl rfl) (builds_nodes items hc asm ha)
  | hole => cases hc

theorem builds_nodes (ps : List Pattern) (hc : Pattern.areComplete ps) (asm : Assembler) (ha : asm.Aligned) :
    Builds asm (ps.map .node) (asm.extend (Pattern.codeAll asm.pc ps)) := by
  cases ps with
  | nil => exact Assembler.extend_nil ▸ .refl _
  | cons p ps =>
    obtain ⟨hp, hps⟩ := Bool.and_eq_true_iff.1 hc
    have h := (builds_node p hp asm ha).trans (builds_nodes ps hps _ ha.extend)
    simpa [Assembler.extend_extend, Pattern.length_code, Pattern.codeAll] using h

end

theorem Pattern.compile_of_fault {p : Pattern} {limit : Int} {e : CodeError}
    (h : (drain { limit } [.node p]).2 = some e) : p.compile limit = .error e := by
  rw [Pattern.compile, Generator.generate]
  split
  · rename_i e' he
    rw [he] at h
    cases h
    rfl
  · rename_i g he
    rw [he] at h
    cases h

/-- A complete pattern has a program if there is room for its code and the instruction to accept. -/
theorem Pattern.compile_of_isComplete {p : Pattern} (hc : p.isComplete) (limit : Int) :
    p.compile limit =
      if (p.width + 1 : Int) ≤ limit then .ok (p.code 0 ++ [Instr.accept]).toArray else .error .counterOverflow := by
  let asm : Assembler := { limit }
  have h : Builds asm [.node p] (asm.extend (p.code 0)) := builds_node p hc asm rfl
  have hpc : (asm.extend (p.code 0)).pc = p.width := by simp [asm, Pattern.length_code]
  have hasm : asm.pc = 0 := rfl
  have hlimit : asm.limit = limit := rfl
  by_cases hroom : p.width = 0 ∨ (p.width : Int) ≤ limit
  · have hd : drain asm [.node p] = ({ asm := asm.extend (p.code 0) }, none) := by
      rw [← List.append_nil [Task.node p], h.fits (by omega), drain]
    have hcompile : p.compile limit = ((asm.extend (p.code 0)).push .accept).map (·.code) := by
      rw [Pattern.compile, Generator.generate, hd]
    rw [hcompile]
    by_cases hlast : (p.width + 1 : Int) ≤ limit
    · rw [Assembler.push_of_lt (by simp only [hpc, Assembler.limit_extend]; omega), if_pos hlast]
      simp [Except.map, Assembler.extend, asm]
    · rw [Assembler.push_of_le (by simp only [hpc, Assembler.limit_extend]; omega), if_neg hlast]
      rfl
  · have hd : (drain asm [.node p]).2 = some .counterOverflow := by
      rw [← List.append_nil [Task.node p], h.full (by omega) (by omega)]
    rw [if_neg (by omega)]
    exact Pattern.compile_of_fault hd

theorem Pattern.eq_of_compile {p : Pattern} {limit : Int} {program : Program} (hc : p.isComplete)
    (h : p.compile limit = .ok program) : program = (p.code 0 ++ [Instr.accept]).toArray := by
  rw [Pattern.compile_of_isComplete hc] at h
  split at h
  · exact (Except.ok.inj h).symm
  · cases h

end PatternMachine
