import PatternMachine.Proofs.Code.Assembly

/-!
# Patterns with missing parts

A pattern with a missing part has no code.  The generator finds that out when it comes to the first missing part, behind
the instructions that belong before it (`Pattern.widthToHole?`); if there is no room for these, it comes to the limit
instead.  `Breaks` says both of tasks, as `Builds` does of tasks that succeed; the part of a pattern before the first
missing one is complete, so `Builds` carries the generator there (`Breaks.after`).

With the code of the complete patterns this gives the answer of the generator for every pattern
(`Pattern.compile_eq_code`).
-/

namespace PatternMachine

open Generator (drain)

/-- The tasks come to a missing part when they have added `n` instructions, if there is room for these, whatever is to
be done afterwards; if there is not, the location counter comes to its limit. -/
structure Breaks (asm : Assembler) (tasks : List Task) (n : Nat) : Prop where
  fits : n = 0 ∨ (asm.pc + n : Int) ≤ asm.limit → ∀ rest,
    (drain asm (tasks ++ rest)).2 = some .hole ∧ (drain asm (tasks ++ rest)).1.asm.pc = asm.pc + n
  full : n ≠ 0 → asm.limit < asm.pc + n → ∀ rest, (drain asm (tasks ++ rest)).2 = some .counterOverflow

namespace Breaks

variable {asm asm₁ : Assembler} {ts us next : List Task} {t : Task} {k n : Nat}

private theorem hole : Breaks asm [.node .hole] 0 where
  fits _ rest := by
    rw [List.singleton_append, drain]
    exact ⟨rfl, rfl⟩
  full h := absurd rfl h

private theorem append (h : Breaks asm ts n) (us : List Task) : Breaks asm (ts ++ us) n where
  fits hroom rest := by
    rw [List.append_assoc]
    exact h.fits hroom _
  full hne hlt rest := by
    rw [List.append_assoc]
    exact h.full hne hlt _

/-- The missing part comes after what adds `k` instructions. -/
theorem after (h : Builds asm ts asm₁) (hpc : asm₁.pc = asm.pc + k) (h' : Breaks asm₁ us n) :
    Breaks asm (ts ++ us) (k + n) := by
  have hlimit := h.limit_eq
  refine ⟨fun hroom rest => ?_, fun hne hlt rest => ?_⟩
  · rw [List.append_assoc, h.fits (by omega)]
    obtain ⟨hfault, hpc'⟩ := h'.fits (by omega) rest
    exact ⟨hfault, by omega⟩
  · -- there may be no room for what `us` adds only
    by_cases hroom : asm₁.pc = asm.pc ∨ (asm₁.pc : Int) ≤ asm.limit
    · rw [List.append_assoc, h.fits hroom, h'.full (by omega) (by omega)]
    · rw [List.append_assoc, h.full (by omega) (by omega)]

/-- The missing part is left to other tasks by one that adds `k` instructions. -/
private theorem task (ht : Adds asm t k asm₁ next) (h : Breaks asm₁ next n) : Breaks asm [t] (k + n) := by
  have hpc := ht.pc_eq
  have hlimit := ht.limit_eq
  refine ⟨fun hroom rest => ?_, fun hne hlt rest => ?_⟩
  · obtain ⟨hfault, hpc'⟩ := h.fits (by omega) rest
    rw [List.singleton_append, drain, ht.fits (by omega)]
    exact ⟨hfault, hpc'.trans (by omega)⟩
  · rw [List.singleton_append, drain]
    by_cases hroom : k = 0 ∨ (asm.pc + k : Int) ≤ asm.limit
    · rw [ht.fits hroom]
      exact h.full (by omega) (by omega) rest
    · rw [ht.full (by omega) (by omega)]

end Breaks

/-! ### Patterns -/

mutual

private theorem breaks_node (p : Pattern) {n : Nat} (h : p.widthToHole? = some n) (asm : Assembler) (ha : asm.Aligned) :
    Breaks asm [.node p] n := by
  cases p with
  | char _ | any | lineStart | lineEnd => cases h
  | plus body =>
    have hbody := breaks_node body h asm ha
    have hall := Breaks.task (t := .node body.plus) (.still rfl rfl rfl) (hbody.append [.again asm.pc])
    rwa [Nat.zero_add] at hall
  | star body =>
    obtain ⟨k, hk, rfl⟩ := Option.map_eq_some_iff.1 h
    have hbody := breaks_node body hk (asm.extend [.split (asm.pc + 1) 0]) ha.extend
    exact .task (.push rfl) (hbody.append [.loop asm.pc])
  | opt body =>
    obtain ⟨k, hk, rfl⟩ := Option.map_eq_some_iff.1 h
    have hbody := breaks_node body hk (asm.extend [.split (asm.pc + 1) 0]) ha.extend
    exact .task (.push rfl) (hbody.append [.skip asm.pc])
  | alt first second =>
    rcases Option.or_eq_some_iff.1 h with h | ⟨hnone, h⟩
    · obtain ⟨k, hk, rfl⟩ := Option.map_eq_some_iff.1 h
      have hfirst := breaks_node first hk (asm.extend [.split (asm.pc + 1) 0]) ha.extend
      exact .task (.push rfl) (hfirst.append [.elseBranch asm.pc second])
    · obtain ⟨k, hk, rfl⟩ := Option.map_eq_some_iff.1 h
      -- the split, the first branch and the jump over the second one come before it
      have hc := (Pattern.widthToHole?_eq_none_iff first).1 (Option.map_eq_none_iff.1 hnone)
      have hfirst := builds_node first hc (asm.extend [.split (asm.pc + 1) 0]) ha.extend
      rw [Assembler.extend_extend] at hfirst
      have hsecond := breaks_node second hk (asm.extend (.split (asm.pc + 1)
        (asm.pc + (first.code (asm.pc + 1)).length + 2 : Nat) :: (first.code (asm.pc + 1) ++ [.jump 0]))) ha.extend
      have hjump := Breaks.task (.jumpOver (d := 0) ha) (hsecond.append [.exit _])
      have hall := Breaks.task (t := .node (first.alt second)) (.push rfl)
        (.after hfirst (k := first.width) (by simp [Pattern.length_code]; omega) hjump)
      rwa [show 1 + (first.width + (1 + k)) = first.width + 2 + k by omega] at hall
  | seq items =>
    have hall := Breaks.task (t := .node (.seq items)) (.still rfl rfl rfl) (breaks_nodes items h asm ha)
    rwa [Nat.zero_add] at hall
  | hole =>
    cases h
    exact .hole

private theorem breaks_nodes (ps : List Pattern) {n : Nat} (h : Pattern.widthToHoleAll? ps = some n) (asm : Assembler)
    (ha : asm.Aligned) : Breaks asm (ps.map .node) n := by
  cases ps with
  | nil => cases h
  | cons p ps =>
    rcases Option.or_eq_some_iff.1 h with h | ⟨hnone, h⟩
    · exact (breaks_node p h asm ha).append (ps.map .node)
    · obtain ⟨k, hk, rfl⟩ := Option.map_eq_some_iff.1 h
      have hp := builds_node p ((Pattern.widthToHole?_eq_none_iff p).1 hnone) asm ha
      exact .after hp (by simp [Pattern.length_code]) (breaks_nodes ps hk _ ha.extend)

end

namespace Pattern

/-- A pattern of which a part is missing has no program. -/
private theorem compile_of_hole {p : Pattern} {n : Nat} (h : p.widthToHole? = some n) (limit : Int) :
    p.compile limit = (if n = 0 ∨ (n : Int) ≤ limit then .error .hole else .error .counterOverflow) ∧
      (n = 0 ∨ (n : Int) ≤ limit → (Generator.generate { asm := { limit } } p).1.asm.code.size = n) := by
  let asm : Assembler := { limit }
  have ha : asm.Aligned := rfl
  have hb : Breaks asm [.node p] n := breaks_node p h asm ha
  have hpc : asm.pc = 0 := rfl
  have hlimit : asm.limit = limit := rfl
  by_cases hroom : n = 0 ∨ (n : Int) ≤ limit
  · obtain ⟨hfault, hcounter⟩ := hb.fits (by omega) []
    rw [List.append_nil] at hfault hcounter
    have haligned : (drain asm [.node p]).1.asm.Aligned := ha.drain _
    have hgenerate : Generator.generate { asm } p = drain asm [.node p] := rfl
    refine ⟨by rw [compile_of_fault hfault, if_pos hroom], fun _ => ?_⟩
    rw [hgenerate, ← haligned, hcounter, hpc, Nat.zero_add]
  · have hfault := hb.full (by omega) (by omega) []
    exact ⟨by rw [compile_of_fault hfault, if_neg hroom], fun h => absurd h hroom⟩

/-- The generator gives a pattern its code as it is laid out, and the instruction to accept, if there is room for both.
If a part of the pattern is missing, the generator stops there, unless there is no room for the instructions before. -/
theorem compile_eq_code (p : Pattern) (limit : Int) :
    (p.widthToHole? = none ↔ p.isComplete) ∧
    p.compile limit = (match p.widthToHole? with
      | none =>
        if ((p.code 0 ++ [Instr.accept]).length : Int) ≤ limit then .ok (p.code 0 ++ [Instr.accept]).toArray
        else .error .counterOverflow
      | some m => if m = 0 ∨ (m : Int) ≤ limit then .error .hole else .error .counterOverflow) ∧
    ∀ m, p.widthToHole? = some m → m = 0 ∨ (m : Int) ≤ limit →
      (Generator.generate { asm := { limit } } p).1.asm.code.size = m := by
  refine ⟨widthToHole?_eq_none_iff p, ?_, fun m hm => (compile_of_hole hm limit).2⟩
  cases h : p.widthToHole? with
  | none =>
    rw [compile_of_isComplete ((widthToHole?_eq_none_iff p).1 h)]
    simp [length_code]
  | some m => exact (compile_of_hole h limit).1

/-- An alternation whose second branch ends with a missing part. -/
def unfinished : Pattern :=
  .alt (.char "a") (.seq [.opt .any, .hole])

/-- There is room for the split, the first branch, the jump and the option, and for nothing else. -/
theorem unfinished_compile : unfinished.widthToHole? = some 5 ∧ (5 : Int) ≤ 5 ∧
    (Generator.generate { asm := { limit := 5 } } unfinished).1.asm.code.size = 5 ∧
    unfinished.compile 5 = .error .hole ∧ unfinished.compile 4 = .error .counterOverflow :=
  ⟨rfl, Int.le_refl 5, (compile_eq_code unfinished 5).2.2 5 rfl (.inr (Int.le_refl 5)),
    (compile_eq_code unfinished 5).2.1, (compile_eq_code unfinished 4).2.1⟩

end Pattern

end PatternMachine
