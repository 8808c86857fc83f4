import Mathlib.Data.List.Chain
import PatternMachine.Proofs.Code.Shape

/-!
# The control flow of compiled programs

What an instruction can lead to is an edge of the control flow (`Program.Flows`).  In a program that fits, an edge that
begins at no split either leads forward or ends at a split (`Program.Fits.lt_or_split_of_flows`).  So along a path
without splits the addresses grow, and it never closes (`Program.Fits.split_mem_cycle`).
-/

namespace PatternMachine

/-- The addresses to which an instruction at an address can lead. -/
def Instr.destinations (a : Nat) : Instr → List Int
  | char _ | any | lineStart => [(a + 1 : Nat)]
  | lineEnd | accept | illegal => []
  | jump target => [target]
  | split first second => [first, second]

namespace Program

variable {program : Program} {a b : Nat} {i : Instr}

/-- Control can go from the first address to the second one. -/
def Flows (program : Program) (a b : Nat) : Prop :=
  ∃ i, program[a]? = some i ∧ (b : Int) ∈ i.destinations a

/-- A split stands at the address. -/
def SplitsAt (program : Program) (a : Nat) : Prop :=
  ∃ first second, program[a]? = some (.split first second)

namespace Fits

/-- Whatever an instruction can lead to is an address of the program. -/
theorem destination_lt (hf : program.Fits) (hi : program[a]? = some i) {d : Int} (hd : d ∈ i.destinations a) :
    0 ≤ d ∧ d < program.size := by
  have hfit := hf a i hi
  have hlt : a < program.size := (Array.getElem?_eq_some_iff.1 hi).1
  cases i with
  | char _ | any | lineStart | split _ _ =>
    simp only [Instr.destinations, List.mem_cons, List.not_mem_nil, or_false] at hd
    simp only [FitsAt] at hfit
    omega
  | jump target =>
    simp only [Instr.destinations, List.mem_singleton] at hd
    rcases hfit with hforward | ⟨t, ht, hback, -⟩
    · omega
    · omega
  | lineEnd | accept | illegal => cases hd

theorem lt_or_split_of_flows (hf : program.Fits) (h : program.Flows a b) :
    a < b ∨ program.SplitsAt a ∨ a + 1 < program.size ∧ program.SplitsAt b := by
  obtain ⟨i, hi, hb⟩ := h
  have hfit := hf a i hi
  cases i with
  | char _ | any | lineStart =>
    left
    simp only [Instr.destinations, List.mem_singleton] at hb
    omega
  | jump target =>
    simp only [Instr.destinations, List.mem_singleton] at hb
    rcases hfit with ⟨hforward, -⟩ | ⟨t, ht, -, hsplit, hsize⟩
    · left
      omega
    · right
      right
      obtain rfl : b = t := by omega
      exact ⟨hsize, _, _, hsplit⟩
  | split first second =>
    right
    left
    exact ⟨first, second, hi⟩
  | lineEnd | accept | illegal => cases hb

/-- A path that comes back to where it began has come to a split. -/
theorem split_mem_cycle (hf : program.Fits) {path : List Nat} (h : List.IsChain program.Flows (a :: path ++ [a])) :
    ∃ b ∈ a :: path, program.SplitsAt b := by
  by_contra hnone
  have hno : ∀ b ∈ a :: path ++ [a], ¬program.SplitsAt b := by
    intro b hb hsplit
    refine hnone ⟨b, ?_, hsplit⟩
    rw [List.mem_append, List.mem_singleton] at hb
    rcases hb with hb | rfl
    · exact hb
    · exact List.mem_cons_self
  have hgrows : List.IsChain (· < ·) (a :: path ++ [a]) := by
    refine h.imp_of_mem_imp fun b c hb hc hflows => ?_
    rcases hf.lt_or_split_of_flows hflows with hlt | hsplit | ⟨-, hsplit⟩
    · exact hlt
    · exact absurd hsplit (hno b hb)
    · exact absurd hsplit (hno c hc)
  have hsorted := List.isChain_iff_pairwise.1 hgrows
  have hlt := List.rel_of_pairwise_cons hsorted (List.mem_append_right path List.mem_cons_self)
  exact Nat.lt_irrefl a hlt

end Fits

end Program

namespace Pattern

/-- The shape of a compiled program: nothing but the last instruction accepts; a split leads on and further on, or
back and on; a jump leads further on, or back to a split that leads into a loop and behind it.  So no destination is
one that was left open, all are in range, and every cycle of the control flow comes to a split. -/
theorem shape_of_compile (p : Pattern) (hc : p.isComplete) (limit : Int) (program : Program)
    (h : p.compile limit = .ok program) :
    (program.back? = some .accept ∧ ∀ a, program[a]? = some .accept → a + 1 = program.size) ∧
    (∀ (a : Nat) (first second : Int), program[a]? = some (.split first second) →
      (first = a + 1 ∧ a < second ∧ second < program.size) ∨
        (0 ≤ first ∧ first ≤ a ∧ second = a + 1 ∧ second < program.size)) ∧
    (∀ (a : Nat) (target : Int), program[a]? = some (.jump target) → (a < target ∧ target < program.size) ∨
      (0 ≤ target ∧ target < a ∧ program[target.toNat]? = some (.split (target + 1) (a + 1)))) ∧
    (∀ (a : Nat) (first : Int), program[a]? ≠ some (.split first 0)) ∧
    (∀ a : Nat, program[a]? = some (.jump 0) → program[0]? = some (.split 1 (a + 1))) ∧
    (∀ (a : Nat) (i : Instr), program[a]? = some i → ∀ d ∈ i.destinations a, 0 ≤ d ∧ d < program.size) ∧
    ∀ a path, List.IsChain program.Flows (a :: path ++ [a]) →
      ∃ b ∈ a :: path, ∃ first second, program[b]? = some (.split first second) := by
  have hf := fits_of_compile hc h
  have hlast : program.back? = some .accept := by
    rw [eq_of_compile hc h]
    simp
  have hsplit : ∀ (a : Nat) (first second : Int), program[a]? = some (.split first second) →
      (first = a + 1 ∧ a < second ∧ second < program.size) ∨
        (0 ≤ first ∧ first ≤ a ∧ second = a + 1 ∧ second < program.size) := by
    intro a first second hi
    have hfit := hf a _ hi
    simp only [Program.FitsAt] at hfit
    omega
  have hjump : ∀ (a : Nat) (target : Int), program[a]? = some (.jump target) → (a < target ∧ target < program.size) ∨
      (0 ≤ target ∧ target < a ∧ program[target.toNat]? = some (.split (target + 1) (a + 1))) := by
    intro a target hi
    rcases hf a _ hi with hforward | ⟨t, rfl, hback, hsplit, -⟩
    · exact .inl hforward
    · refine .inr ⟨by omega, by omega, ?_⟩
      simpa using hsplit
  refine ⟨⟨hlast, fun a hi => hf a _ hi⟩, hsplit, hjump, fun a first hi => ?_, fun a hi => ?_,
    fun a i hi d hd => hf.destination_lt hi hd, fun a path hpath => hf.split_mem_cycle hpath⟩
  · have := hsplit a first 0 hi
    omega
  · rcases hjump a 0 hi with ⟨hforward, -⟩ | ⟨-, -, hback⟩
    · omega
    · simpa using hback

/-- A loop that begins with its own body, over a loop that begins with its split, or nothing. -/
def nestedLoops : Pattern :=
  .plus (.alt (.star .any) (.seq []))

theorem nestedLoops_shape :
    nestedLoops.compile = .ok #[.split 1 5, .split 2 4, .any, .jump 1, .jump 5, .split 0 6, .accept] ∧
    ∃ b ∈ [2, 3, 1], ∃ first second, #[Instr.split 1 5, .split 2 4, .any, .jump 1, .jump 5, .split 0 6, .accept][b]? =
      some (.split first second) := by
  have hcompile : nestedLoops.compile =
      .ok #[.split 1 5, .split 2 4, .any, .jump 1, .jump 5, .split 0 6, .accept] := compile_of_isComplete rfl _
  refine ⟨hcompile, (shape_of_compile nestedLoops rfl _ _ hcompile).2.2.2.2.2.2 2 [3, 1] ?_⟩
  exact .cons_cons ⟨.any, rfl, by decide⟩ (.cons_cons ⟨.jump 1, rfl, by decide⟩
    (.cons_cons ⟨.split 2 4, rfl, by decide⟩ (.singleton 2)))

end Pattern

end PatternMachine
