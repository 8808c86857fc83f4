import PatternMachine.Proofs.Code.Session

/-!
# Code that stands anywhere

The code of a pattern is the same wherever it stands, but that its destinations move along with it (`Instr.shift`,
`Pattern.code_add`).  So a generator with instructions in its program and patterns on its agenda adds the code of each,
one behind the other, as if it had begun with an empty program.

It leaves the instructions before alone, also if there is no room: a task sets destinations only in instructions that
have been added since (`Task.Beyond`).  What it does to the program and to the location counter is a `Continuation` of
what was there, and continuations compose, so the whole run of the agenda is one (`continuation_drain`).
-/

namespace PatternMachine

open Generator (drain)

/-! ### Relocation -/

/-- The instruction with its destinations moved on by `d`. -/
def Instr.shift (d : Nat) : Instr → Instr
  | jump target => jump (target + d)
  | split first second => split (first + d) (second + d)
  | i => i

namespace Pattern

mutual

theorem code_add (p : Pattern) (b d : Nat) : p.code (b + d) = (p.code b).map (Instr.shift d) := by
  cases p with
  | char _ | any | lineStart | lineEnd | hole => rfl
  | plus body =>
    have hbody := code_add body b d
    simp only [code, hbody, List.map_append, List.map_cons, List.map_nil, Instr.shift]
    congr 3
    omega
  | star body =>
    have hbody := code_add body (b + 1) d
    rw [show b + 1 + d = b + d + 1 by omega] at hbody
    simp only [code, hbody, List.map_append, List.map_cons, List.map_nil, Instr.shift]
    congr 2 <;> omega
  | opt body =>
    have hbody := code_add body (b + 1) d
    rw [show b + 1 + d = b + d + 1 by omega] at hbody
    simp only [code, hbody, List.map_cons, Instr.shift]
    congr 2 <;> omega
  | alt first second =>
    have hfirst := code_add first (b + 1) d
    have hsecond := code_add second (b + first.width + 2) d
    rw [show b + 1 + d = b + d + 1 by omega] at hfirst
    rw [show b + first.width + 2 + d = b + d + first.width + 2 by omega] at hsecond
    simp only [code, hfirst, hsecond, List.map_append, List.map_cons, Instr.shift]
    congr 2
    · omega
    · omega
    · congr 3
      omega
  | seq items => exact codeAll_add items b d

private theorem codeAll_add (ps : List Pattern) (b d : Nat) :
    codeAll (b + d) ps = (codeAll b ps).map (Instr.shift d) := by
  cases ps with
  | nil => rfl
  | cons p ps =>
    have hps := codeAll_add ps (b + p.width) d
    rw [show b + p.width + d = b + d + p.width by omega] at hps
    rw [codeAll, codeAll, code_add p b d, hps, List.map_append]

end

theorem code_eq_map_shift (p : Pattern) (base : Nat) : p.code base = (p.code 0).map (Instr.shift base) := by
  rw [← code_add, Nat.zero_add]

/-- The codes of the patterns at the address `0`, each of them moved on to where it begins if they stand one behind the
other from `base` on. -/
def relocated (base : Nat) : List Pattern → List Instr
  | [] => []
  | p :: ps => (p.code 0).map (Instr.shift base) ++ relocated (base + p.width) ps

private theorem codeAll_eq_relocated (ps : List Pattern) (base : Nat) : codeAll base ps = relocated base ps := by
  induction ps generalizing base with
  | nil => rfl
  | cons p ps ih =>
    rw [codeAll, relocated, code_eq_map_shift p base, ih]

private theorem length_relocated (ps : List Pattern) (base : Nat) : (relocated base ps).length = widthAll ps := by
  rw [← codeAll_eq_relocated, length_codeAll]

end Pattern

/-! ### What a task can do -/

namespace Assembler

variable (asm : Assembler)

/-- An instruction is added unless there is no room. -/
private theorem push_cases (i : Instr) :
    (∃ asm', asm.push i = .ok asm') ∨ asm.limit ≤ asm.pc ∧ asm.push i = .error .counterOverflow := by
  rcases Int.lt_or_le asm.pc asm.limit with hroom | hfull
  · exact .inl ⟨_, push_of_lt hroom i⟩
  · exact .inr ⟨hfull, push_of_le hfull i⟩

theorem pushThen_cases (i : Instr) (next : List Task) :
    (∃ asm', asm.push i = .ok asm' ∧ asm.pushThen i next = { asm := asm', next }) ∨
    asm.limit ≤ asm.pc ∧ asm.pushThen i next = { asm, fault := some .counterOverflow } := by
  obtain ⟨asm', hp⟩ | ⟨hfull, hp⟩ := asm.push_cases i
  · exact .inl ⟨asm', hp, by rw [pushThen, hp]⟩
  · exact .inr ⟨hfull, by rw [pushThen, hp]⟩

/-- Setting a destination goes well, or nothing changes. -/
theorem settle_cases (a : Nat) (o : Opcode) (fault : CodeError) (new : Targets) :
    (∃ asm', asm.redirect a (some o) fault new = .ok asm' ∧
      asm.settle (asm.redirect a (some o) fault new) = { asm := asm' }) ∨
    asm.settle (asm.redirect a (some o) fault new) = { asm, fault := some fault } := by
  cases hr : asm.redirect a (some o) fault new with
  | ok asm' => exact .inl ⟨asm', rfl, rfl⟩
  | error e =>
    obtain ⟨rfl, -⟩ := eq_of_redirect_error hr
    exact .inr rfl

theorem closeLoop_cases (start : Nat) :
    (∃ asm', asm.push (.jump start) = .ok asm' ∧
      asm.closeLoop start = asm'.settle (asm'.redirect start (some .split) .loop { second := some asm'.pc })) ∨
    asm.limit ≤ asm.pc ∧ asm.closeLoop start = { asm, fault := some .counterOverflow } := by
  obtain ⟨asm', hp⟩ | ⟨hfull, hp⟩ := asm.push_cases (.jump start)
  · exact .inl ⟨asm', hp, by rw [closeLoop, hp]⟩
  · exact .inr ⟨hfull, by rw [closeLoop, hp]⟩

/-- Whatever fails in the middle of an alternation, the second branch comes next. -/
theorem jumpOver_cases (split : Nat) (second : Pattern) :
    (∃ asm', asm.push (.jump 0) = .ok asm' ∧
      asm.jumpOver split second =
        { asm'.settle (asm'.redirect split (some .split) .alternation { second := some asm'.pc }) with
          next := [.node second, .exit asm.pc] }) ∨
    asm.limit ≤ asm.pc ∧
      asm.jumpOver split second = { asm, next := [.node second, .exit 0], fault := some .counterOverflow } := by
  obtain ⟨asm', hp⟩ | ⟨hfull, hp⟩ := asm.push_cases (.jump 0)
  · refine .inl ⟨asm', hp, ?_⟩
    simp only [jumpOver, hp]
    cases hr : asm'.redirect split (some .split) CodeError.alternation { second := some asm'.pc } with
    | ok _ => rfl
    | error _ => rfl
  · exact .inr ⟨hfull, by rw [jumpOver, hp]⟩

end Assembler

/-! ### Continuations -/

variable {asm asm' asm'' : Assembler} {before : List Instr} {next : List Task}

/-- The instructions `before` stay at the beginning of the program, if they are there, and the location counter goes on
from where it was, up to the limit at most. -/
structure Continuation (before : List Instr) (asm asm' : Assembler) : Prop where
  keeps : before <+: asm.code.toList → before <+: asm'.code.toList
  limit_eq : asm'.limit = asm.limit
  pc_le : asm.pc ≤ asm'.pc
  le_max : (asm'.pc : Int) ≤ max (asm.pc : Int) asm.limit

namespace Continuation

private theorem refl (before : List Instr) (asm : Assembler) : Continuation before asm asm where
  keeps h := h
  limit_eq := rfl
  pc_le := Nat.le_refl _
  le_max := Int.le_max_left _ _

private theorem trans (h : Continuation before asm asm') (h' : Continuation before asm' asm'') :
    Continuation before asm asm'' := by
  have hlimit := h.limit_eq
  have hpc := h.pc_le
  have hpc' := h'.pc_le
  have hmax := h.le_max
  have hmax' := h'.le_max
  exact ⟨fun hb => h'.keeps (h.keeps hb), h'.limit_eq.trans hlimit, by omega, by omega⟩

private theorem push {i : Instr} (h : asm.push i = .ok asm') : Continuation before asm asm' := by
  rw [Assembler.push] at h
  split at h
  · cases h
  · rename_i hroom
    cases h
    refine ⟨fun hb => ?_, rfl, Nat.le_succ _, ?_⟩
    · rw [Array.toList_push]
      exact hb.trans (List.prefix_append _ _)
    · push_cast
      omega

/-- A destination is set in an instruction behind those of `before`. -/
private theorem redirect {ε : Type} {a : Nat} {expected : Option Opcode} {fault : ε} {new : Targets}
    (ha : before.length ≤ a) (h : asm.redirect a expected fault new = .ok asm') : Continuation before asm asm' := by
  rw [Assembler.redirect] at h
  repeat' split at h
  all_goals cases h
  refine ⟨fun hb => ?_, rfl, Nat.le_refl _, Int.le_max_left _ _⟩
  rw [List.prefix_iff_getElem?] at hb ⊢
  intro i hi
  have hne : a ≠ i := by omega
  rw [Array.toList_modify, List.getElem?_modify, hb i hi]
  simp [hne]

end Continuation

/-! ### Tasks -/

/-- The task sets no destination before the address `n`. -/
def Task.Beyond (n : Nat) : Task → Prop
  | node _ | again _ => True
  | elseBranch split _ | skip split => n ≤ split
  | exit jump => n ≤ jump
  | loop start => n ≤ start

/-- What holds of the outcome of a task: the program goes on, the tasks that come next set destinations in what has
been added only, and if there was no room, the location counter is at the limit. -/
structure Outcome.Continues (before : List Instr) (asm : Assembler) (out : Outcome) : Prop where
  continuation : Continuation before asm out.asm
  beyond : out.fault = none → ∀ t ∈ out.next, t.Beyond before.length
  full : out.fault = some .counterOverflow → out.asm.limit ≤ out.asm.pc

private theorem Outcome.Continues.of_none {out : Outcome} (hfault : out.fault = none)
    (hcontinuation : Continuation before asm out.asm) (hbeyond : ∀ t ∈ out.next, t.Beyond before.length) :
    out.Continues before asm := by
  refine ⟨hcontinuation, fun _ => hbeyond, fun h => ?_⟩
  rw [hfault] at h
  cases h

private theorem continues_pushThen {i : Instr} (hnext : ∀ t ∈ next, t.Beyond before.length) :
    (asm.pushThen i next).Continues before asm := by
  obtain ⟨asm', hp, hout⟩ | ⟨hfull, hout⟩ := asm.pushThen_cases i next
  · rw [hout]
    exact .of_none rfl (.push hp) hnext
  · rw [hout]
    exact ⟨.refl before asm, fun _ => List.forall_mem_nil _, fun _ => hfull⟩

private theorem continues_expand (hpc : before.length ≤ asm.pc) (p : Pattern) :
    (asm.expand p).Continues before asm := by
  cases p with
  | char _ | any | lineStart | lineEnd => exact continues_pushThen (List.forall_mem_nil _)
  | plus body =>
    refine .of_none rfl (.refl before asm) ?_
    simp [Assembler.expand, Task.Beyond]
  | star body | opt body | alt first second =>
    refine continues_pushThen ?_
    simpa [Task.Beyond] using hpc
  | seq items =>
    refine .of_none rfl (.refl before asm) ?_
    simp [Assembler.expand, Task.Beyond]
  | hole => exact ⟨.refl before asm, fun _ => List.forall_mem_nil _, by simp [Assembler.expand]⟩

private theorem continues_settle {a : Nat} {o : Opcode} {fault : CodeError} {new : Targets} (ha : before.length ≤ a)
    (hfault : fault ≠ .counterOverflow) :
    (asm.settle (asm.redirect a (some o) fault new)).Continues before asm := by
  obtain ⟨asm', hr, hout⟩ | hout := asm.settle_cases a o fault new
  · rw [hout]
    exact .of_none rfl (.redirect ha hr) (List.forall_mem_nil _)
  · rw [hout]
    exact ⟨.refl before asm, fun _ => List.forall_mem_nil _, fun h => absurd (Option.some.inj h) hfault⟩

private theorem continues_closeLoop {start : Nat} (ha : before.length ≤ start) :
    (asm.closeLoop start).Continues before asm := by
  obtain ⟨asm', hp, hout⟩ | ⟨hfull, hout⟩ := asm.closeLoop_cases start
  · have hsettle : (asm.closeLoop start).Continues before asm' := hout ▸ continues_settle ha nofun
    exact ⟨.trans (.push hp) hsettle.continuation, hsettle.beyond, fun h => hsettle.full h⟩
  · rw [hout]
    exact ⟨.refl before asm, fun _ => List.forall_mem_nil _, fun _ => hfull⟩

private theorem continues_jumpOver {split : Nat} {second : Pattern} (hpc : before.length ≤ asm.pc)
    (ha : before.length ≤ split) : (asm.jumpOver split second).Continues before asm := by
  obtain ⟨asm', hp, hout⟩ | ⟨hfull, hout⟩ := asm.jumpOver_cases split second
  · have hsettle : (asm'.settle (asm'.redirect split (some .split) CodeError.alternation
        { second := some asm'.pc })).Continues before asm' := continues_settle ha nofun
    rw [hout]
    refine ⟨.trans (.push hp) hsettle.continuation, fun _ => ?_, hsettle.full⟩
    simpa [Task.Beyond] using hpc
  · rw [hout]
    refine ⟨.refl before asm, fun h => ?_, fun _ => hfull⟩
    cases h

private theorem continues_perform (hpc : before.length ≤ asm.pc) {t : Task} (ht : t.Beyond before.length) :
    (t.perform asm).Continues before asm := by
  cases t with
  | node p => exact continues_expand hpc p
  | elseBranch split second => exact continues_jumpOver hpc ht
  | exit jump => exact continues_settle ht nofun
  | skip split => exact continues_settle ht nofun
  | again start => exact continues_pushThen (List.forall_mem_nil _)
  | loop start => exact continues_closeLoop ht

theorem continuation_drain {agenda : List Task} (hpc : before.length ≤ asm.pc)
    (hagenda : ∀ t ∈ agenda, t.Beyond before.length) :
    Continuation before asm (drain asm agenda).1.asm ∧
    ((drain asm agenda).2 = some .counterOverflow → asm.limit ≤ (drain asm agenda).1.asm.pc) := by
  fun_induction drain asm agenda with
  | case1 asm =>
    refine ⟨.refl before asm, fun h => ?_⟩
    cases h
  | case2 asm t rest out e he =>
    have hout : out.Continues before asm := continues_perform hpc (hagenda t (List.mem_cons_self ..))
    refine ⟨hout.continuation, fun h => ?_⟩
    rw [← hout.continuation.limit_eq]
    exact hout.full (he.trans h)
  | case3 asm t rest out he ih =>
    obtain ⟨ht, hrest⟩ := List.forall_mem_cons.1 hagenda
    have hout : out.Continues before asm := continues_perform hpc ht
    have hstep := hout.continuation
    obtain ⟨hcontinuation, hfull⟩ := ih (Nat.le_trans hpc hstep.pc_le)
      (List.forall_mem_append.2 ⟨hout.beyond he, hrest⟩)
    exact ⟨hstep.trans hcontinuation, fun h => hstep.limit_eq ▸ hfull h⟩

namespace Generator

/-- A generator with patterns on its agenda adds the code of a further pattern and then theirs, each moved on to where
it stands, and nothing else changes; if there is no room for all of it, what was in the program stays as it was, and the
location counter comes to the limit, unless it was beyond. -/
theorem generate_relocated (asm : Assembler) (ha : asm.Aligned) (p : Pattern) (ps : List Pattern)
    (hc : Pattern.areComplete (p :: ps)) :
    (Pattern.widthAll (p :: ps) = 0 ∨ (asm.pc + Pattern.widthAll (p :: ps) : Int) ≤ asm.limit →
      generate { asm, agenda := ps.map .node } p =
        ({ asm := asm.extend (Pattern.relocated asm.pc (p :: ps)) }, none)) ∧
    (Pattern.widthAll (p :: ps) ≠ 0 → asm.limit < asm.pc + Pattern.widthAll (p :: ps) →
      ∃ g, generate { asm, agenda := ps.map .node } p = (g, some .counterOverflow) ∧
        asm.code.toList <+: g.asm.code.toList ∧ (g.asm.pc : Int) = max (asm.code.size : Int) asm.limit) := by
  have hbuilds : Builds asm ((p :: ps).map .node) (asm.extend (Pattern.relocated asm.pc (p :: ps))) := by
    have h := builds_nodes (p :: ps) hc asm ha
    rwa [Pattern.codeAll_eq_relocated] at h
  have hpc : (asm.extend (Pattern.relocated asm.pc (p :: ps))).pc = asm.pc + Pattern.widthAll (p :: ps) := by
    rw [Assembler.pc_extend, Pattern.length_relocated]
  have hgenerate : generate { asm, agenda := ps.map .node } p = drain asm ((p :: ps).map .node ++ []) := by
    rw [generate, List.append_nil, List.map_cons]
  rw [hgenerate]
  constructor
  · intro hroom
    rw [hbuilds.fits (by omega), drain]
  · intro hne hlt
    have hfault := hbuilds.full (by omega) (by omega) []
    have hagenda : ∀ t ∈ (p :: ps).map Task.node ++ [], t.Beyond asm.code.toList.length := by
      simp [Task.Beyond]
    have hlength : asm.code.toList.length = asm.pc := ha.symm
    obtain ⟨hcontinuation, hfull⟩ := continuation_drain (Nat.le_of_eq hlength) hagenda
    have hpc_le : (asm.pc : Int) ≤ _ := Int.ofNat_le.2 hcontinuation.pc_le
    refine ⟨_, Prod.ext rfl hfault, hcontinuation.keeps (List.prefix_refl _), ?_⟩
    rw [← ha]
    exact Int.le_antisymm hcontinuation.le_max (Int.max_le.2 ⟨hpc_le, hfull hfault⟩)

/-- A program of two instructions that has nothing to do with what comes next. -/
def begun (limit : Int) : Assembler :=
  { code := #[.jump 7, .any], pc := 2, limit }

/-- There is room for both patterns, or for the split and the dot of the first only. -/
theorem generate_relocated_begun :
    (begun 7).Aligned ∧ Pattern.areComplete [.star .any, .opt (.char "a")] ∧ ((2 : Nat) + (5 : Nat) : Int) ≤ 7 ∧
    generate { asm := begun 7, agenda := [.node (.opt (.char "a"))] } (.star .any) =
      ({ asm := { code := #[.jump 7, .any, .split 3 5, .any, .jump 2, .split 6 7, .char "a"], pc := 7, limit := 7 } },
        none) ∧
    (4 : Int) < (2 : Nat) + (5 : Nat) ∧
    ∃ g, generate { asm := begun 4, agenda := [.node (.opt (.char "a"))] } (.star .any) = (g, some .counterOverflow) ∧
      [.jump 7, .any] <+: g.asm.code.toList ∧ (g.asm.pc : Int) = 4 := by
  have hc : Pattern.areComplete [.star .any, .opt (.char "a")] := by decide
  have hroom : ((2 : Nat) + (5 : Nat) : Int) ≤ 7 := by decide
  have hfull : (4 : Int) < (2 : Nat) + (5 : Nat) := by decide
  obtain ⟨hfits, -⟩ := generate_relocated (begun 7) rfl (.star .any) [.opt (.char "a")] hc
  obtain ⟨-, hover⟩ := generate_relocated (begun 4) rfl (.star .any) [.opt (.char "a")] hc
  exact ⟨rfl, hc, hroom, hfits (.inr hroom), hfull, hover (by decide) hfull⟩

end Generator

end PatternMachine
