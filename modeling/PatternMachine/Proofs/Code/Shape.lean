import PatternMachine.Proofs.Code.Assembly

/-!
# The shape of compiled programs

Where the code of a pattern stands in a program (`Located`), every instruction of it fits its address: what it can
lead to is in range, the instruction to accept is the last one, and a jump leads forward or back to a split
(`FitsAt`).  So every circle of a compiled program contains a split.
-/

namespace PatternMachine

/-! ### Instructions at addresses -/

/-- The property holds of the instructions of a list, the first of which is at the address `a`. -/
def Located (P : Nat → Instr → Prop) (a : Nat) : List Instr → Prop
  | [] => True
  | i :: l => P a i ∧ Located P (a + 1) l

section Located

variable {P : Nat → Instr → Prop} {a : Nat} {l l' : List Instr}

@[simp] theorem located_nil : Located P a [] := trivial

@[simp] theorem located_cons {i : Instr} : Located P a (i :: l) ↔ P a i ∧ Located P (a + 1) l := Iff.rfl

@[simp] theorem located_append : Located P a (l ++ l') ↔ Located P a l ∧ Located P (a + l.length) l' := by
  induction l generalizing a with
  | nil => simp
  | cons i l ih => simp [ih, and_assoc, Nat.add_assoc, Nat.add_comm 1]

private theorem Located.get {k : Nat} {i : Instr} (h : Located P a l) (hk : l[k]? = some i) : P (a + k) i := by
  induction l generalizing a k with
  | nil => cases hk
  | cons j l ih =>
    cases k with
    | zero =>
      cases hk
      exact h.1
    | succ k =>
      have := ih h.2 hk
      rwa [Nat.add_right_comm, Nat.add_assoc] at this

end Located

namespace Program

/-- The instructions of the list stand in the program, the first of them at the address `a`. -/
def HasAt (program : Program) (a : Nat) (l : List Instr) : Prop :=
  Located (fun b i => program[b]? = some i) a l

private theorem hasAt_suffix (l l' : List Instr) : HasAt (l ++ l').toArray l.length l' := by
  induction l' generalizing l with
  | nil => trivial
  | cons i l' ih =>
    refine ⟨by simp, ?_⟩
    have := ih (l ++ [i])
    simpa [HasAt] using this

private theorem hasAt_toArray (l : List Instr) : HasAt l.toArray 0 l :=
  hasAt_suffix [] l

/-- The instruction can stand at the address: the addresses that it leads to are in range, nothing but the last
instruction accepts, and a jump that leads back leads to a split behind which its own loop begins and ends. -/
def FitsAt (program : Program) (a : Nat) : Instr → Prop
  | .char _ | .any | .lineStart | .lineEnd => a + 1 < program.size
  | .accept => a + 1 = program.size
  | .jump target => (a < target ∧ target < program.size) ∨
      ∃ t : Nat, target = t ∧ t < a ∧ program[t]? = some (.split (t + 1 : Nat) (a + 1 : Nat)) ∧ a + 1 < program.size
  | .split first second => (first = (a + 1 : Nat) ∧ a < second ∧ second < program.size) ∨
      (0 ≤ first ∧ first ≤ a ∧ second = (a + 1 : Nat) ∧ a + 1 < program.size)
  | .illegal => False

/-- Every instruction of the program fits its address. -/
def Fits (program : Program) : Prop :=
  ∀ a i, program[a]? = some i → program.FitsAt a i

end Program

open Program (HasAt FitsAt)

namespace Pattern

mutual

private theorem located_code (p : Pattern) (hc : p.isComplete) {program : Program} {b : Nat}
    (h : HasAt program b (p.code b)) (hb : b + p.width < program.size) : Located (FitsAt program) b (p.code b) := by
  cases p with
  | char _ | any | lineStart | lineEnd => exact ⟨hb, trivial⟩
  | plus body =>
    simp only [code, width, HasAt, located_append, located_cons, length_code] at *
    refine ⟨located_code body hc h.1 (by omega), ?_, trivial⟩
    right
    omega
  | star body =>
    simp only [code, width, HasAt, located_append, located_cons, length_code] at *
    refine ⟨?_, located_code body hc h.2.1 (by omega), ?_, trivial⟩
    · left
      omega
    · right
      refine ⟨b, rfl, by omega, ?_, by omega⟩
      rw [h.1]
      congr 2
      omega
  | opt body =>
    simp only [code, width, HasAt, located_cons] at *
    refine ⟨?_, located_code body hc h.2 (by omega)⟩
    left
    omega
  | alt first second =>
    simp only [isComplete, Bool.and_eq_true, code, width, HasAt, located_append, located_cons, length_code] at *
    have hsecond : b + 1 + first.width + 1 = b + first.width + 2 := by omega
    rw [hsecond] at h ⊢
    refine ⟨?_, located_code first hc.1 h.2.1 (by omega), ?_, located_code second hc.2 h.2.2.2 (by omega)⟩
    · left
      omega
    · left
      omega
  | seq items => exact located_codeAll items hc h hb
  | hole => cases hc

private theorem located_codeAll (ps : List Pattern) (hc : areComplete ps) {program : Program} {b : Nat}
    (h : HasAt program b (codeAll b ps)) (hb : b + widthAll ps < program.size) :
    Located (FitsAt program) b (codeAll b ps) := by
  cases ps with
  | nil => trivial
  | cons p ps =>
    simp only [areComplete, Bool.and_eq_true, codeAll, widthAll, HasAt, located_append, length_code] at *
    exact ⟨located_code p hc.1 h.1 (by omega), located_codeAll ps hc.2 h.2 (by omega)⟩

end

theorem hasAt_of_compile {p : Pattern} {limit : Int} {program : Program} (hc : p.isComplete)
    (h : p.compile limit = .ok program) : HasAt program 0 (p.code 0 ++ [.accept]) := by
  rw [eq_of_compile hc h]
  exact Program.hasAt_toArray _

theorem size_of_compile {p : Pattern} {limit : Int} {program : Program} (hc : p.isComplete)
    (h : p.compile limit = .ok program) : program.size = p.width + 1 := by
  rw [eq_of_compile hc h]
  simp [length_code]

theorem size_pos_of_compile {p : Pattern} {limit : Int} {program : Program} (hc : p.isComplete)
    (h : p.compile limit = .ok program) : 0 < program.size := by
  rw [size_of_compile hc h]
  exact Nat.succ_pos _

theorem fits_of_compile {p : Pattern} {limit : Int} {program : Program} (hc : p.isComplete)
    (h : p.compile limit = .ok program) : program.Fits := by
  intro a i hi
  have hsize := size_of_compile hc h
  have hat := located_append.1 (hasAt_of_compile hc h)
  have hl : Located (FitsAt program) 0 (p.code 0 ++ [.accept]) := by
    refine located_append.2 ⟨located_code p hc hat.1 (by omega), ?_, trivial⟩
    rw [length_code, Nat.zero_add]
    exact hsize.symm
  rw [eq_of_compile hc h, List.getElem?_toArray] at hi
  simpa using hl.get hi

end Pattern

end PatternMachine
