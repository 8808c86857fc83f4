import PatternMachine.Code.Session
import PatternMachine.Proofs.Code.Assembly

/-!
# What holds in every session

Whatever is asked of a generator, in whatever order and whether it fails or not, the location counter is at the end of
the program, and what is in the program stays there, but for the destinations (`Program.erased`).  So a task that is
still on the agenda finds the instructions of which it will set a destination (`Task.Waits`), and cannot fail on that
account.  There is one exception: where there was no room for the jump of an alternation, the task at the end of the
alternation looks for it in vain.  `Generator.session_invariant` puts this together.
-/

namespace PatternMachine

open Generator (drain)

variable {ε : Type}

/-! ### Instructions but for their destinations -/

namespace Instr

variable {i j : Instr}

@[simp] theorem erased_retarget (new : Targets) : (i.retarget new).erased = i.erased := by
  cases i <;> rfl

@[simp] theorem opcode_erased : i.erased.opcode = i.opcode := by
  cases i <;> rfl

end Instr

namespace Program

variable {program program' : Program} {a : Nat} {i : Instr}

private theorem erased_push : Program.erased (program.push i) = program.erased ++ [i.erased] := by
  simp [erased]

private theorem erased_modify (new : Targets) :
    Program.erased (program.modify a (·.retarget new)) = program.erased := by
  apply List.ext_getElem?
  intro b
  simp only [erased, Array.toList_modify, List.getElem?_map, List.getElem?_modify]
  cases program.toList[b]? with
  | none => rfl
  | some j => by_cases h : a = b <;> simp [h]

/-- The instruction at the address is of the operation. -/
def HasOpcode (program : Program) (a : Nat) (o : Opcode) : Prop :=
  ∃ i, program[a]? = some i ∧ i.opcode = o

private theorem HasOpcode.mono {o : Opcode} (h : program.HasOpcode a o) (hp : program.erased <+: program'.erased) :
    program'.HasOpcode a o := by
  obtain ⟨i, hi, ho⟩ := h
  have hget : program.erased[a]? = some i.erased := by
    simp [erased, hi]
  obtain ⟨hlt, hget⟩ := List.getElem?_eq_some_iff.1 hget
  have hget' := List.prefix_iff_getElem?.1 hp a hlt
  rw [hget] at hget'
  simp only [erased, List.getElem?_map, Array.getElem?_toList] at hget'
  obtain ⟨j, hj, hij⟩ := Option.map_eq_some_iff.1 hget'
  refine ⟨j, hj, ?_⟩
  rw [← Instr.opcode_erased, hij, Instr.opcode_erased, ho]

end Program

namespace Assembler

variable {asm asm' : Assembler} {a : Nat} {i : Instr} {o : Opcode}

theorem erased_of_push (h : asm.push i = .ok asm') : asm'.code.erased = asm.code.erased ++ [i.erased] := by
  rw [push] at h
  split at h
  · cases h
  · cases h
    exact Program.erased_push

private theorem hasOpcode_of_push (ha : asm.Aligned) (h : asm.push i = .ok asm') :
    asm'.code.HasOpcode asm.pc i.opcode := by
  rw [push] at h
  split at h
  · cases h
  · cases h
    refine ⟨i, ?_, rfl⟩
    rw [ha]
    exact Array.getElem?_push_size

private theorem eq_of_push_error {e : CodeError} (h : asm.push i = .error e) : e = .counterOverflow := by
  rw [push] at h
  split at h <;> cases h
  rfl

theorem erased_of_redirect {fault : ε} {expected : Option Opcode} {new : Targets}
    (h : asm.redirect a expected fault new = .ok asm') : asm'.code.erased = asm.code.erased := by
  rw [redirect] at h
  repeat' split at h
  all_goals cases h
  exact Program.erased_modify new

/-- Setting a destination fails with the given error, and never if the instruction is as it is expected to be. -/
theorem eq_of_redirect_error {fault e : ε} {new : Targets} (h : asm.redirect a (some o) fault new = .error e) :
    e = fault ∧ ¬asm.code.HasOpcode a o := by
  constructor
  · rw [redirect] at h
    repeat' split at h
    all_goals cases h
    all_goals rfl
  · rintro ⟨i, hi, ho⟩
    simp [redirect, hi, ho] at h

end Assembler

/-! ### Tasks -/

/-- The instructions of which the task will set a destination are there; that of an alternation may be missing, if
there was no room for it. -/
def Task.Waits (program : Program) (lost : Prop) : Task → Prop
  | node _ | again _ => True
  | elseBranch split _ | skip split => program.HasOpcode split .split
  | loop start => program.HasOpcode start .split
  | exit jump => program.HasOpcode jump .jump ∨ lost

/-- The error can come up; that of an alternation only if there was no room for its jump. -/
def CodeError.IsDue (lost : Prop) : CodeError → Prop
  | counterOverflow | hole => True
  | alternation => lost
  | loop | option => False

private theorem CodeError.due_none {lost : Prop} (e : CodeError) (h : none = some e) : e.IsDue lost := by
  cases h

theorem Task.Waits.mono {program program' : Program} {lost lost' : Prop} {t : Task} (h : t.Waits program lost)
    (hp : program.erased <+: program'.erased) (hl : lost → lost') : t.Waits program' lost' := by
  cases t with
  | node _ | again _ => trivial
  | elseBranch _ _ | skip _ | loop _ => exact Program.HasOpcode.mono h hp
  | exit jump => exact Or.imp (·.mono hp) hl h

/-- What holds of the outcome of a task: the program keeps what it has, the tasks that come next find what they look
for, and the error is one that can come up. -/
structure Outcome.Sound (asm : Assembler) (lost lost' : Prop) (out : Outcome) : Prop where
  keeps : asm.code.erased <+: out.asm.code.erased
  waits : ∀ t ∈ out.next, t.Waits out.asm.code lost'
  due : ∀ e, out.fault = some e → e.IsDue lost

section Tasks

variable {asm asm' : Assembler} {lost lost' : Prop} {a : Nat} {i : Instr} {next : List Task}

private theorem Outcome.Sound.mono {out : Outcome} (h : out.Sound asm lost lost) (hl : lost → lost') :
    out.Sound asm lost lost' :=
  ⟨h.keeps, fun t ht => (h.waits t ht).mono (List.prefix_refl _) hl, h.due⟩

private theorem sound_pushThen (hnext : ∀ asm', asm.push i = .ok asm' → ∀ t ∈ next, t.Waits asm'.code lost) :
    (asm.pushThen i next).Sound asm lost lost := by
  unfold Assembler.pushThen
  split
  · rename_i asm' hp
    have hkeeps : asm.code.erased <+: asm'.code.erased := Assembler.erased_of_push hp ▸ List.prefix_append ..
    exact ⟨hkeeps, hnext asm' hp, CodeError.due_none⟩
  · rename_i e hp
    refine ⟨List.prefix_refl _, List.forall_mem_nil _, ?_⟩
    rintro _ ⟨⟩
    rw [Assembler.push] at hp
    split at hp <;> cases hp
    trivial

/-- The tasks of a construct whose split is added now find it. -/
private theorem sound_pushThen_split {first second : Int} (ha : asm.Aligned)
    (hnext : ∀ program : Program, program.HasOpcode asm.pc .split → ∀ t ∈ next, t.Waits program lost) :
    (asm.pushThen (.split first second) next).Sound asm lost lost :=
  sound_pushThen fun _ hp => hnext _ (Assembler.hasOpcode_of_push ha hp)

private theorem sound_expand (ha : asm.Aligned) (p : Pattern) : (asm.expand p).Sound asm lost lost := by
  cases p with
  | char _ | any | lineStart | lineEnd => exact sound_pushThen fun _ _ => List.forall_mem_nil _
  | plus body => exact ⟨List.prefix_refl _, by simp [Assembler.expand, Task.Waits], CodeError.due_none⟩
  | star body | opt body | alt first second =>
    refine sound_pushThen_split ha fun program hsplit => ?_
    simpa [Task.Waits] using hsplit
  | seq items => exact ⟨List.prefix_refl _, by simp [Assembler.expand, Task.Waits], CodeError.due_none⟩
  | hole => exact ⟨List.prefix_refl _, List.forall_mem_nil _, by simp [Assembler.expand, CodeError.IsDue]⟩

/-- Setting a destination goes well, or fails for a reason. -/
private theorem sound_settle {o : Opcode} {fault : CodeError} {new : Targets}
    (h : asm.code.HasOpcode a o ∨ fault.IsDue lost) :
    (asm.settle (asm.redirect a (some o) fault new)).Sound asm lost lost := by
  cases hr : asm.redirect a (some o) fault new with
  | ok asm' =>
    have hkeeps : asm.code.erased <+: asm'.code.erased := (Assembler.erased_of_redirect hr).symm ▸ List.prefix_refl _
    exact ⟨hkeeps, List.forall_mem_nil _, CodeError.due_none⟩
  | error e =>
    obtain ⟨rfl, hnot⟩ := Assembler.eq_of_redirect_error hr
    refine ⟨List.prefix_refl _, List.forall_mem_nil _, ?_⟩
    rintro _ ⟨⟩
    exact h.resolve_left hnot

private theorem sound_closeLoop {start : Nat} (h : asm.code.HasOpcode start .split) :
    (asm.closeLoop start).Sound asm lost lost := by
  simp only [Assembler.closeLoop]
  cases hp : asm.push (.jump start) with
  | error e =>
    rw [Assembler.eq_of_push_error hp]
    exact ⟨List.prefix_refl _, List.forall_mem_nil _, by simp [CodeError.IsDue]⟩
  | ok asm₁ =>
    have hkeeps : asm.code.erased <+: asm₁.code.erased := Assembler.erased_of_push hp ▸ List.prefix_append ..
    have hsettle : (asm₁.settle (asm₁.redirect start (some .split) CodeError.loop { second := some asm₁.pc })).Sound
        asm₁ lost lost := sound_settle (.inl (h.mono hkeeps))
    exact ⟨hkeeps.trans hsettle.keeps, hsettle.waits, hsettle.due⟩

/-- The jump of an alternation is missing if there is no room for it. -/
private theorem sound_jumpOver {split : Nat} {second : Pattern} (ha : asm.Aligned)
    (h : asm.code.HasOpcode split .split) :
    (asm.jumpOver split second).Sound asm lost (lost ∨ (asm.jumpOver split second).fault = some .counterOverflow) := by
  simp only [Assembler.jumpOver]
  cases hp : asm.push (.jump 0) with
  | error e =>
    rw [Assembler.eq_of_push_error hp]
    exact ⟨List.prefix_refl _, by simp [Task.Waits], by simp [CodeError.IsDue]⟩
  | ok asm₁ =>
    have hkeeps : asm.code.erased <+: asm₁.code.erased := Assembler.erased_of_push hp ▸ List.prefix_append ..
    have hjump : asm₁.code.HasOpcode asm.pc .jump := Assembler.hasOpcode_of_push ha hp
    cases hr : asm₁.redirect split (some .split) CodeError.alternation { second := some asm₁.pc } with
    | error e => exact absurd (h.mono hkeeps) (Assembler.eq_of_redirect_error hr).2
    | ok asm₂ =>
      have hkeeps' : asm₁.code.erased <+: asm₂.code.erased :=
        (Assembler.erased_of_redirect hr).symm ▸ List.prefix_refl _
      have hexit : Task.Waits asm₂.code (lost ∨ none = some CodeError.counterOverflow) (.exit asm.pc) :=
        .inl (hjump.mono hkeeps')
      simp only [hr]
      refine ⟨hkeeps.trans hkeeps', ?_, CodeError.due_none⟩
      exact List.forall_mem_cons.2 ⟨trivial, List.forall_mem_singleton.2 hexit⟩

/-- A task that finds what it looks for fails for a reason only, and leaves tasks that find what they look for. -/
private theorem sound_perform (ha : asm.Aligned) {t : Task} (ht : t.Waits asm.code lost) :
    (t.perform asm).Sound asm lost (lost ∨ (t.perform asm).fault = some .counterOverflow) := by
  cases t with
  | node p => exact (sound_expand ha p).mono .inl
  | elseBranch split second => exact sound_jumpOver ha ht
  | exit jump =>
    have hjump : asm.code.HasOpcode jump .jump ∨ lost := ht
    exact (sound_settle hjump).mono .inl
  | skip split => exact (sound_settle (.inl ht)).mono .inl
  | again start => exact (sound_pushThen fun _ _ => List.forall_mem_nil _).mono .inl
  | loop start => exact (sound_closeLoop ht).mono .inl

end Tasks

/-! ### Requests -/

namespace Generator

/-- The location counter is at the end of the program, and the tasks on the agenda find what they look for. -/
structure Sound (lost : Prop) (g : Generator) : Prop where
  aligned : g.asm.Aligned
  waits : ∀ t ∈ g.agenda, t.Waits g.asm.code lost

variable {g : Generator} {asm : Assembler} {lost : Prop} {agenda : List Task} {requests : List (Request ε)}
  {r : Request ε}

theorem drain_sound (ha : asm.Aligned) (hw : ∀ t ∈ agenda, t.Waits asm.code lost) :
    asm.code.erased <+: (drain asm agenda).1.asm.code.erased ∧
    (∀ t ∈ (drain asm agenda).1.agenda,
      t.Waits (drain asm agenda).1.asm.code (lost ∨ (drain asm agenda).2 = some .counterOverflow)) ∧
    ∀ e, (drain asm agenda).2 = some e → e.IsDue lost := by
  fun_induction drain asm agenda with
  | case1 asm => exact ⟨List.prefix_refl _, List.forall_mem_nil _, CodeError.due_none⟩
  | case2 asm t rest out e he =>
    obtain ⟨ht, hrest⟩ := List.forall_mem_cons.1 hw
    have hout : out.Sound asm lost (lost ∨ out.fault = some .counterOverflow) := sound_perform ha ht
    rw [he] at hout
    refine ⟨hout.keeps, List.forall_mem_append.2 ⟨hout.waits, fun u hu => ?_⟩, fun e' h => hout.due e' (he.trans h)⟩
    exact (hrest u hu).mono hout.keeps .inl
  | case3 asm t rest out he ih =>
    obtain ⟨ht, hrest⟩ := List.forall_mem_cons.1 hw
    have hout : out.Sound asm lost (lost ∨ out.fault = some .counterOverflow) := sound_perform ha ht
    rw [he] at hout
    have hnext : ∀ u ∈ out.next ++ rest, u.Waits out.asm.code lost :=
      List.forall_mem_append.2 ⟨fun u hu => (hout.waits u hu).mono (List.prefix_refl _) (by simp),
        fun u hu => (hrest u hu).mono hout.keeps id⟩
    obtain ⟨hkeeps, hwaits, hdue⟩ := ih (ha.perform t) hnext
    exact ⟨hout.keeps.trans hkeeps, hwaits, hdue⟩

/-- The tasks on the agenda find what they look for in whatever program keeps what there was. -/
private theorem Sound.keeps (h : g.Sound lost) (ha : asm.Aligned) (hk : g.asm.code.erased <+: asm.code.erased)
    {lost' : Prop} (hl : lost → lost') : Sound lost' { g with asm } :=
  ⟨ha, fun t ht => (h.waits t ht).mono hk hl⟩

/-- What holds of a generator still holds when a request has been handled, and the program keeps what it has. -/
private theorem Sound.handle (h : g.Sound lost) (r : Request ε) :
    g.asm.code.erased <+: (g.handle r).1.asm.code.erased ∧
    (g.handle r).1.Sound (lost ∨ ∃ p, r = .generate p ∧ (g.handle r).2 = some (.code .counterOverflow)) := by
  cases r with
  | push i =>
    simp only [Generator.handle]
    split
    · rename_i asm hp
      have hkeeps : g.asm.code.erased <+: asm.code.erased := Assembler.erased_of_push hp ▸ List.prefix_append ..
      exact ⟨hkeeps, h.keeps (h.aligned.push hp) hkeeps .inl⟩
    · exact ⟨List.prefix_refl _, h.keeps h.aligned (List.prefix_refl _) .inl⟩
  | redirect a expected fault new =>
    simp only [Generator.handle]
    split
    · rename_i asm hr
      have hkeeps : g.asm.code.erased <+: asm.code.erased :=
        (Assembler.erased_of_redirect hr).symm ▸ List.prefix_refl _
      exact ⟨hkeeps, h.keeps (h.aligned.redirect hr) hkeeps .inl⟩
    · exact ⟨List.prefix_refl _, h.keeps h.aligned (List.prefix_refl _) .inl⟩
  | prepend ps =>
    refine ⟨List.prefix_refl _, h.aligned, List.forall_mem_append.2 ⟨by simp [Task.Waits], fun t ht => ?_⟩⟩
    exact (h.waits t ht).mono (List.prefix_refl _) .inl
  | generate p =>
    have hagenda : ∀ t ∈ Task.node p :: g.agenda, t.Waits g.asm.code lost := List.forall_mem_cons.2 ⟨trivial, h.waits⟩
    obtain ⟨hkeeps, hwaits, -⟩ := drain_sound h.aligned hagenda
    refine ⟨hkeeps, h.aligned.drain _, fun t ht => (hwaits t ht).mono (List.prefix_refl _) (Or.imp_right ?_)⟩
    intro hfault
    exact ⟨p, rfl, by simp [Generator.handle, Generator.generate, hfault]⟩
  | expand p =>
    have hout : (g.asm.expand p).Sound g.asm lost lost := sound_expand h.aligned p
    refine ⟨hout.keeps, h.aligned.perform (.node p), List.forall_mem_append.2 ⟨fun t ht => ?_, fun t ht => ?_⟩⟩
    · exact (hout.waits t ht).mono (List.prefix_refl _) .inl
    · exact (h.waits t ht).mono hout.keeps .inl
  | setLimit limit =>
    refine ⟨List.prefix_refl _, h.aligned, fun t ht => ?_⟩
    exact (h.waits t ht).mono (List.prefix_refl _) .inl

/-- Code generation fails for a reason only. -/
private theorem Sound.isDue (h : g.Sound lost) {p : Pattern} (hr : r ∈ [Request.generate p, .expand p]) {e : CodeError}
    (he : (g.handle r).2 = some (.code e)) : e.IsDue lost := by
  simp only [List.mem_cons, List.not_mem_nil, or_false] at hr
  rcases hr with rfl | rfl
  · have hagenda : ∀ t ∈ Task.node p :: g.agenda, t.Waits g.asm.code lost := List.forall_mem_cons.2 ⟨trivial, h.waits⟩
    obtain ⟨-, -, hdue⟩ := drain_sound h.aligned hagenda
    simp only [Generator.handle, Option.map_eq_some_iff, Refusal.code.injEq, exists_eq_right] at he
    exact hdue e he
  · simp only [Generator.handle, Option.map_eq_some_iff, Refusal.code.injEq, exists_eq_right] at he
    exact (sound_expand h.aligned p).due e he

/-! ### Sessions -/

private theorem Overflows.first {p : Pattern}
    (h : (g.handle (.generate p : Request ε)).2 = some (.code .counterOverflow)) (requests : List (Request ε)) :
    g.Overflows (.generate p :: requests) :=
  ⟨[], p, requests, rfl, h⟩

private theorem Overflows.rest (h : (g.handle r).1.Overflows requests) : g.Overflows (r :: requests) := by
  obtain ⟨before, p, after, rfl, hp⟩ := h
  exact ⟨r :: before, p, after, rfl, hp⟩

private theorem Sound.handleAll (h : g.Sound lost) (requests : List (Request ε)) :
    g.asm.code.erased <+: (g.handleAll requests).asm.code.erased ∧
    (g.handleAll requests).Sound (lost ∨ g.Overflows requests) := by
  induction requests generalizing g lost with
  | nil => exact ⟨List.prefix_refl _, h.keeps h.aligned (List.prefix_refl _) .inl⟩
  | cons r requests ih =>
    obtain ⟨hkeeps, hsound⟩ := h.handle r
    obtain ⟨hkeeps', hsound'⟩ := ih hsound
    refine ⟨hkeeps.trans hkeeps', hsound'.keeps hsound'.aligned (List.prefix_refl _) ?_⟩
    rintro ((hlost | ⟨p, rfl, hp⟩) | hrest)
    · exact .inl hlost
    · exact .inr (.first hp requests)
    · exact .inr hrest.rest

/-- After any requests the location counter is at the end of the program, of which nothing but destinations changes
ever after.  Adding an instruction or setting a destination changes nothing if it fails, and code generation fails
neither because of a loop nor because of an option, and because of an alternation only if there was no room for some
pattern before. -/
theorem session_invariant (limit : Int) (requests : List (Request ε)) :
    let g := session limit requests
    g.asm.pc = g.asm.code.size ∧
    (∀ more, g.asm.code.erased <+: (session limit (requests ++ more)).asm.code.erased) ∧
    (∀ i, (g.handle (.push i : Request ε)).2 ≠ none → (g.handle (.push i : Request ε)).1 = g) ∧
    (∀ a expected (fault : ε) new, (g.handle (.redirect a expected fault new)).2 ≠ none →
      (g.handle (.redirect a expected fault new)).1 = g) ∧
    ∀ p, ∀ r ∈ ([.generate p, .expand p] : List (Request ε)), ∀ e, (g.handle r).2 = some (.code e) →
      e ≠ .loop ∧ e ≠ .option ∧ (e = .alternation → Overflows { asm := { limit } } requests) := by
  have hinit : Sound False { asm := { limit } } := ⟨rfl, List.forall_mem_nil _⟩
  obtain ⟨-, hsound⟩ := hinit.handleAll requests
  refine ⟨hsound.aligned, fun more => ?_, fun i hi => ?_, fun a expected fault new hr => ?_, fun p r hr e he => ?_⟩
  · obtain ⟨hkeeps, -⟩ := hsound.handleAll more
    rw [session, session, handleAll_append]
    exact hkeeps
  · simp only [Generator.handle] at hi ⊢
    split at hi
    · exact absurd rfl hi
    · rfl
  · simp only [Generator.handle] at hr ⊢
    split at hr
    · exact absurd rfl hr
    · rfl
  · have hdue := hsound.isDue hr he
    refine ⟨?_, ?_, ?_⟩
    · rintro rfl
      exact hdue
    · rintro rfl
      exact hdue
    · rintro rfl
      exact hdue.resolve_left id

/-- There is room for a split and a letter, and later for more. -/
def cramped : List (Request Unit) :=
  [.generate (.alt (.char "a") (.char "b")), .setLimit 9]

/-- The end of the alternation comes upon the split where it looks for the jump. -/
theorem session_cramped :
    ((session 2 cramped).handle (.generate (.seq []) : Request Unit)).2 = some (.code .alternation) ∧
      Overflows { asm := { limit := 2 } } cramped := by
  have hfault : ((session 2 cramped).handle (.generate (.seq []) : Request Unit)).2 = some (.code .alternation) := by
    decide +kernel
  obtain ⟨-, -, -, -, hdue⟩ := session_invariant 2 cramped
  exact ⟨hfault, (hdue (.seq []) (.generate (.seq [])) (by simp) _ hfault).2.2 rfl⟩

end Generator

end PatternMachine
