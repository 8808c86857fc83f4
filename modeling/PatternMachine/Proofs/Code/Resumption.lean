import PatternMachine.Proofs.Code.Relocation

/-!
# Going on after a failure

A task that fails is gone from the agenda, and the next request goes on with what is left.  What can still come of an
agenda, if all goes well, is the code that it owes (`owedAll`).  The code that is there and the code that is owed make
up the whole code of the pattern; a task moves its part from one side to the other, and loses a part of it if there is
no room (`owes_perform`).  No other failure loses anything, and there is none unless there was no room before
(`Generator.Resumable`).  So what has been added is always a subsequence of the whole, without repetitions and in its
order, and it is the whole in the end exactly if nothing has failed (`Generator.session_resumed`).
-/

namespace PatternMachine

open Generator (drain)

variable {ε : Type}

/-! ### Code but for its destinations -/

namespace Instr

private theorem erased_shift (d : Nat) (i : Instr) : (i.shift d).erased = i.erased := by
  cases i <;> rfl

end Instr

namespace Pattern

/-- The instructions of a pattern but for their destinations. -/
def skeleton (p : Pattern) : List Instr :=
  (p.code 0).map Instr.erased

/-- The instructions of patterns one after the other, but for their destinations. -/
def skeletonAll (ps : List Pattern) : List Instr :=
  ps.flatMap skeleton

private theorem map_erased_code (p : Pattern) (base : Nat) : (p.code base).map Instr.erased = p.skeleton := by
  rw [code_eq_map_shift, List.map_map, skeleton]
  congr 1
  funext i
  exact Instr.erased_shift base i

private theorem map_erased_codeAll (ps : List Pattern) (base : Nat) :
    (codeAll base ps).map Instr.erased = skeletonAll ps := by
  induction ps generalizing base with
  | nil => rfl
  | cons p ps ih => rw [codeAll, List.map_append, map_erased_code, ih, skeletonAll, skeletonAll, List.flatMap_cons]

private theorem skeleton_plus (body : Pattern) : (plus body).skeleton = body.skeleton ++ [.split 0 0] := by
  simp [skeleton, code, Instr.erased]

private theorem skeleton_star (body : Pattern) : (star body).skeleton = .split 0 0 :: (body.skeleton ++ [.jump 0]) := by
  rw [skeleton, code, List.map_cons, List.map_append, map_erased_code]
  rfl

private theorem skeleton_opt (body : Pattern) : (opt body).skeleton = .split 0 0 :: body.skeleton := by
  rw [skeleton, code, List.map_cons, map_erased_code]
  rfl

private theorem skeleton_alt (first second : Pattern) :
    (alt first second).skeleton = .split 0 0 :: (first.skeleton ++ .jump 0 :: second.skeleton) := by
  rw [skeleton, code, List.map_cons, List.map_append, List.map_cons, map_erased_code, map_erased_code]
  rfl

private theorem skeleton_seq (items : List Pattern) : (seq items).skeleton = skeletonAll items := by
  rw [skeleton, code, map_erased_codeAll]

end Pattern

/-! ### What is owed -/

namespace Task

/-- The instructions, but for their destinations, that the task adds with all that comes of it. -/
def owed : Task → List Instr
  | node p => p.skeleton
  | elseBranch _ second => .jump 0 :: second.skeleton
  | exit _ | skip _ => []
  | again _ => [.split 0 0]
  | loop _ => [.jump 0]

/-- No part of the patterns of the task is missing. -/
def IsComplete : Task → Prop
  | node p => p.isComplete
  | elseBranch _ second => second.isComplete
  | exit _ | skip _ | again _ | loop _ => True

end Task

/-- The instructions, but for their destinations, that an agenda adds. -/
def owedAll (agenda : List Task) : List Instr :=
  agenda.flatMap Task.owed

private theorem owedAll_cons (t : Task) (agenda : List Task) : owedAll (t :: agenda) = t.owed ++ owedAll agenda :=
  List.flatMap_cons

private theorem owedAll_append (ts us : List Task) : owedAll (ts ++ us) = owedAll ts ++ owedAll us :=
  List.flatMap_append

private theorem owedAll_nodes (ps : List Pattern) : owedAll (ps.map .node) = Pattern.skeletonAll ps := by
  induction ps with
  | nil => rfl
  | cons p ps ih => rw [List.map_cons, owedAll_cons, ih, Pattern.skeletonAll, Pattern.skeletonAll, List.flatMap_cons,
      Task.owed]

/-- Some of the instructions of `l'` are gone in `l`, and nothing else has changed. -/
structure Loses (l l' : List Instr) : Prop where
  sublist : l.Sublist l'
  lt : l.length < l'.length

namespace Loses

variable {l l' l'' : List Instr}

private theorem trans_sublist (h : Loses l l') (h' : l'.Sublist l'') : Loses l l'' :=
  ⟨h.sublist.trans h', Nat.lt_of_lt_of_le h.lt h'.length_le⟩

private theorem append_left (h : Loses l l') (l'' : List Instr) : Loses (l'' ++ l) (l'' ++ l') := by
  refine ⟨h.sublist.append_left l'', ?_⟩
  have hlt := h.lt
  rw [List.length_append, List.length_append]
  omega

private theorem append_right (h : Loses l l') (l'' : List Instr) : Loses (l ++ l'') (l' ++ l'') := by
  refine ⟨h.sublist.append_right l'', ?_⟩
  have hlt := h.lt
  rw [List.length_append, List.length_append]
  omega

end Loses

/-! ### Tasks -/

/-- What holds of the outcome of a task: what the task owes has been added or is owed by the tasks that come next; if
there was no room, nothing has been added, and some of it is owed no longer. -/
structure Outcome.Owes (asm : Assembler) (t : Task) (out : Outcome) : Prop where
  kept : out.fault ≠ some .counterOverflow →
    out.asm.code.erased ++ owedAll out.next = asm.code.erased ++ t.owed
  lost : out.fault = some .counterOverflow → out.asm = asm ∧ Loses (owedAll out.next) t.owed
  complete : ∀ u ∈ out.next, u.IsComplete
  ne_hole : out.fault ≠ some .hole

section Tasks

variable {asm : Assembler} {t : Task}

private theorem Outcome.Owes.of_none {out : Outcome} (hfault : out.fault = none)
    (hkept : out.asm.code.erased ++ owedAll out.next = asm.code.erased ++ t.owed)
    (hcomplete : ∀ u ∈ out.next, u.IsComplete) : out.Owes asm t := by
  refine ⟨fun _ => hkept, fun h => ?_, hcomplete, fun h => ?_⟩ <;>
  · rw [hfault] at h
    cases h

private theorem owes_pushThen {i : Instr} (next : List Task) (ht : t.owed = i.erased :: owedAll next)
    (hnext : ∀ u ∈ next, u.IsComplete) : (asm.pushThen i next).Owes asm t := by
  obtain ⟨asm', hp, hout⟩ | ⟨-, hout⟩ := asm.pushThen_cases i next
  · rw [hout]
    refine .of_none rfl ?_ hnext
    rw [Assembler.erased_of_push hp, ht, List.append_assoc, List.singleton_append]
  · rw [hout]
    refine ⟨fun h => absurd rfl h, fun _ => ⟨rfl, List.nil_sublist _, ?_⟩, List.forall_mem_nil _, nofun⟩
    rw [ht]
    exact Nat.succ_pos _

private theorem erased_settle (a : Nat) (o : Opcode) (fault : CodeError) (new : Targets) :
    (asm.settle (asm.redirect a (some o) fault new)).asm.code.erased = asm.code.erased := by
  obtain ⟨asm', hr, hout⟩ | hout := asm.settle_cases a o fault new
  · rw [hout]
    exact Assembler.erased_of_redirect hr
  · rw [hout]

/-- Setting a destination adds nothing, and loses nothing if it fails. -/
private theorem owes_settle {a : Nat} {o : Opcode} {fault : CodeError} {new : Targets} (ht : t.owed = [])
    (hfull : fault ≠ .counterOverflow) (hhole : fault ≠ .hole) :
    (asm.settle (asm.redirect a (some o) fault new)).Owes asm t := by
  obtain ⟨asm', hr, hout⟩ | hout := asm.settle_cases a o fault new
  · rw [hout]
    refine .of_none rfl ?_ (List.forall_mem_nil _)
    rw [ht, ← Assembler.erased_of_redirect hr]
    rfl
  · rw [hout]
    refine ⟨fun _ => ?_, fun h => ?_, List.forall_mem_nil _, fun h => ?_⟩
    · rw [ht]
      rfl
    · exact absurd (Option.some.inj h) hfull
    · exact absurd (Option.some.inj h) hhole

private theorem owes_expand {p : Pattern} (hp : p.isComplete) : (asm.expand p).Owes asm (.node p) := by
  cases p with
  | char _ | any | lineStart | lineEnd => exact owes_pushThen [] rfl (List.forall_mem_nil _)
  | plus body =>
    refine .of_none rfl ?_ ?_
    · rw [Task.owed, Pattern.skeleton_plus]
      rfl
    · simpa [Assembler.expand, Task.IsComplete, Pattern.isComplete] using hp
  | star body =>
    refine owes_pushThen _ (Pattern.skeleton_star body) ?_
    simpa [Task.IsComplete, Pattern.isComplete] using hp
  | opt body =>
    refine owes_pushThen _ ?_ ?_
    · rw [Task.owed, Pattern.skeleton_opt]
      simp [owedAll, Task.owed, Instr.erased]
    · simpa [Task.IsComplete, Pattern.isComplete] using hp
  | alt first second =>
    refine owes_pushThen _ ?_ ?_
    · rw [Task.owed, Pattern.skeleton_alt]
      simp [owedAll, Task.owed, Instr.erased]
    · simpa [Task.IsComplete, Pattern.isComplete] using hp
  | seq items =>
    refine .of_none rfl ?_ ?_
    · rw [Task.owed, Pattern.skeleton_seq, ← owedAll_nodes]
      rfl
    · have hitems := Pattern.areComplete_iff.1 hp
      simpa [Assembler.expand, Task.IsComplete] using hitems
  | hole => cases hp

private theorem owes_closeLoop (asm : Assembler) (start : Nat) : (asm.closeLoop start).Owes asm (.loop start) := by
  obtain ⟨asm', hp, hout⟩ | ⟨-, hout⟩ := asm.closeLoop_cases start
  · have hsettle : (asm.closeLoop start).Owes asm' (.skip start) := hout ▸ owes_settle rfl nofun nofun
    refine ⟨fun h => ?_, fun h => ?_, hsettle.complete, hsettle.ne_hole⟩
    · rw [hsettle.kept h, Assembler.erased_of_push hp, List.append_assoc]
      rfl
    · exact absurd (hsettle.lost h).2.lt (Nat.not_lt_zero _)
  · rw [hout]
    exact ⟨fun h => absurd rfl h, fun _ => ⟨rfl, List.nil_sublist _, Nat.succ_pos _⟩, List.forall_mem_nil _, nofun⟩

private theorem owes_jumpOver {split : Nat} {second : Pattern} (hsecond : second.isComplete) :
    (asm.jumpOver split second).Owes asm (.elseBranch split second) := by
  have hnext : ∀ jump, ∀ u ∈ [Task.node second, .exit jump], u.IsComplete := by
    simpa [Task.IsComplete] using hsecond
  have howed : ∀ jump, owedAll [.node second, .exit jump] = second.skeleton := by
    simp [owedAll, Task.owed]
  obtain ⟨asm', hp, hout⟩ | ⟨-, hout⟩ := asm.jumpOver_cases split second
  · have hsettle : (asm'.settle (asm'.redirect split (some .split) CodeError.alternation
        { second := some asm'.pc })).Owes asm' (.skip split) := owes_settle rfl nofun nofun
    rw [hout]
    refine ⟨fun _ => ?_, fun h => ?_, hnext asm.pc, hsettle.ne_hole⟩
    · rw [howed, erased_settle, Assembler.erased_of_push hp, List.append_assoc]
      rfl
    · exact absurd (hsettle.lost h).2.lt (Nat.not_lt_zero _)
  · rw [hout]
    refine ⟨fun h => absurd rfl h, fun _ => ⟨rfl, ?_⟩, hnext 0, nofun⟩
    -- the jump is lost, and the second branch is not
    rw [howed]
    exact ⟨List.sublist_cons_self _ _, Nat.lt_succ_self _⟩

theorem owes_perform (ht : t.IsComplete) : (t.perform asm).Owes asm t := by
  cases t with
  | node p => exact owes_expand ht
  | elseBranch split second => exact owes_jumpOver ht
  | exit jump => exact owes_settle rfl nofun nofun
  | skip split => exact owes_settle rfl nofun nofun
  | again start => exact owes_pushThen [] rfl (List.forall_mem_nil _)
  | loop start => exact owes_closeLoop asm start

end Tasks

/-! ### Agendas -/

namespace Generator

/-- The instructions, but for their destinations, that are there or owed. -/
def total (g : Generator) : List Instr :=
  g.asm.code.erased ++ owedAll g.agenda

/-- Nothing is lost unless there is no room. -/
private theorem drain_owes (asm : Assembler) (agenda : List Task) (hagenda : ∀ t ∈ agenda, t.IsComplete) :
    ((drain asm agenda).2 ≠ some .counterOverflow → (drain asm agenda).1.total = total { asm, agenda }) ∧
    ((drain asm agenda).2 = some .counterOverflow → Loses (drain asm agenda).1.total (total { asm, agenda })) ∧
    (∀ t ∈ (drain asm agenda).1.agenda, t.IsComplete) ∧ (drain asm agenda).2 ≠ some .hole := by
  fun_induction drain asm agenda with
  | case1 asm =>
    refine ⟨fun _ => rfl, fun h => ?_, List.forall_mem_nil _, fun h => ?_⟩ <;>
    cases h
  | case2 asm t rest out e he =>
    obtain ⟨ht, hrest⟩ := List.forall_mem_cons.1 hagenda
    have hout : out.Owes asm t := owes_perform ht
    have hcomplete := List.forall_mem_append.2 ⟨hout.complete, hrest⟩
    simp only [← he]
    refine ⟨fun h => ?_, fun h => ?_, hcomplete, hout.ne_hole⟩
    · simp only [total, owedAll_append, owedAll_cons]
      rw [← List.append_assoc, hout.kept h, List.append_assoc]
    · obtain ⟨hasm, hloses⟩ := hout.lost h
      simp only [total, owedAll_append, owedAll_cons, hasm]
      exact (hloses.append_right _).append_left _
  | case3 asm t rest out he ih =>
    obtain ⟨ht, hrest⟩ := List.forall_mem_cons.1 hagenda
    have hout : out.Owes asm t := owes_perform ht
    have hstep : total { asm := out.asm, agenda := out.next ++ rest } = total { asm, agenda := t :: rest } := by
      have hkept := hout.kept (by simp [he])
      simp only [total, owedAll_append, owedAll_cons]
      rw [← List.append_assoc, hkept, List.append_assoc]
    rw [← hstep]
    exact ih (List.forall_mem_append.2 ⟨hout.complete, hrest⟩)

/-! ### Requests -/

variable {g : Generator} {full : List Instr} {failed : Prop} {r : Request ε} {requests : List (Request ε)}

/-- One of the requests fails. -/
def Fails (g : Generator) (requests : List (Request ε)) : Prop :=
  ∃ before r after, requests = before ++ r :: after ∧ ((g.handleAll before).handle r).2 ≠ none

private theorem not_fails_nil (g : Generator) : ¬g.Fails ([] : List (Request ε)) := by
  rintro ⟨before, r, after, h, -⟩
  cases before <;> cases h

private theorem fails_cons_iff : g.Fails (r :: requests) ↔ (g.handle r).2 ≠ none ∨ (g.handle r).1.Fails requests := by
  constructor
  · rintro ⟨_ | ⟨r', before⟩, r'', after, h, hfault⟩
    · cases h
      exact .inl hfault
    · cases h
      exact .inr ⟨before, r'', after, rfl, hfault⟩
  · rintro (hfault | ⟨before, r', after, rfl, hfault⟩)
    · exact ⟨[], r, requests, rfl, hfault⟩
    · exact ⟨r :: before, r', after, rfl, hfault⟩

/-- What holds between requests: `full` is what is there and owed, unless something has failed, and then some of it is
lost. -/
structure Resumable (full : List Instr) (failed : Prop) (g : Generator) : Prop where
  sound : g.Sound failed
  complete : ∀ t ∈ g.agenda, t.IsComplete
  kept : ¬failed → g.total = full
  lost : failed → Loses g.total full

private theorem Resumable.sublist (h : g.Resumable full failed) : g.total.Sublist full := by
  by_cases hfailed : failed
  · exact (h.lost hfailed).sublist
  · obtain rfl := h.kept hfailed
    exact List.Sublist.refl _

/-- Generating the code of the pattern that comes first fails only if some of it is lost, or has been lost before. -/
private theorem Resumable.generate {p : Pattern} (h : (g.prepend [p]).Resumable full failed) :
    (g.handle (.generate p : Request ε)).1.Resumable full
      (failed ∨ (g.handle (.generate p : Request ε)).2 ≠ none) := by
  have hstart : g.asm.Aligned := h.sound.aligned
  have haligned := hstart.drain (.node p :: g.agenda)
  have hagenda : ∀ t ∈ Task.node p :: g.agenda, t.Waits g.asm.code failed := h.sound.waits
  obtain ⟨-, hwaits, hdue⟩ := drain_sound hstart hagenda
  obtain ⟨hkept, hlost, hcomplete, hhole⟩ := drain_owes g.asm (.node p :: g.agenda) h.complete
  have hhandle : g.handle (.generate p : Request ε) =
      ((drain g.asm (.node p :: g.agenda)).1, (drain g.asm (.node p :: g.agenda)).2.map .code) := rfl
  rw [hhandle]
  generalize drain g.asm (.node p :: g.agenda) = out at *
  cases hfault : out.2 with
  | none =>
    have htotal : out.1.total = (g.prepend [p]).total := hkept (by simp [hfault])
    refine ⟨⟨haligned, fun t ht => ?_⟩, hcomplete, fun hnot => ?_, fun hsome => ?_⟩
    · refine (hwaits t ht).mono (List.prefix_refl _) (Or.imp_right fun hfull => ?_)
      rw [hfault] at hfull
      cases hfull
    · rw [htotal]
      exact h.kept fun hfailed => hnot (.inl hfailed)
    · rw [htotal]
      exact h.lost (hsome.resolve_right (by simp))
  | some e =>
    refine ⟨⟨haligned, fun t ht => ?_⟩, hcomplete, fun hnot => ?_, fun _ => ?_⟩
    · exact (hwaits t ht).mono (List.prefix_refl _) (Or.imp_right fun _ => by simp)
    · exact absurd (.inr (by simp)) hnot
    · cases e with
      | counterOverflow => exact (hlost hfault).trans_sublist h.sublist
      | alternation =>
        -- the jump has been lost before
        have hfailed : failed := hdue .alternation hfault
        rw [hkept (by simp [hfault])]
        exact h.lost hfailed
      | loop => exact (hdue .loop hfault).elim
      | option => exact (hdue .option hfault).elim
      | hole => exact absurd hfault hhole

private theorem Resumable.setLimit (h : g.Resumable full failed) (limit : Int) :
    (g.handle (.setLimit limit : Request ε)).1.Resumable full
      (failed ∨ (g.handle (.setLimit limit : Request ε)).2 ≠ none) := by
  have hfailed : (failed ∨ (g.handle (.setLimit limit : Request ε)).2 ≠ none) = failed := by
    simp [Generator.handle]
  rw [hfailed]
  exact ⟨⟨h.sound.aligned, h.sound.waits⟩, h.complete, h.kept, h.lost⟩

end Generator

/-- The request changes the limit, or goes on with what is left on the agenda. -/
def Request.IsResumption : Request ε → Prop
  | .setLimit _ => True
  | .generate p => p = .seq []
  | .push _ | .redirect _ _ _ _ | .prepend _ | .expand _ => False

namespace Generator

variable {g : Generator} {full : List Instr} {failed : Prop} {r : Request ε} {requests : List (Request ε)}

/-- The empty sequence in front of the agenda owes nothing. -/
private theorem Resumable.prepend_empty (h : g.Resumable full failed) :
    (g.prepend [.seq []]).Resumable full failed := by
  have htotal : (g.prepend [.seq []]).total = g.total := rfl
  refine ⟨⟨h.sound.aligned, ?_⟩, ?_, fun hnot => ?_, fun hfailed => ?_⟩
  · exact List.forall_mem_cons.2 ⟨trivial, h.sound.waits⟩
  · exact List.forall_mem_cons.2 ⟨rfl, h.complete⟩
  · rw [htotal, h.kept hnot]
  · rw [htotal]
    exact h.lost hfailed

private theorem Resumable.handle (h : g.Resumable full failed) (hr : r.IsResumption) :
    (g.handle r).1.Resumable full (failed ∨ (g.handle r).2 ≠ none) := by
  cases r with
  | setLimit limit => exact h.setLimit limit
  | generate p =>
    cases hr
    exact h.prepend_empty.generate
  | push _ | redirect _ _ _ _ | prepend _ | expand _ => exact hr.elim

private theorem Resumable.handleAll (h : g.Resumable full failed) (hr : ∀ r ∈ requests, r.IsResumption) :
    (g.handleAll requests).Resumable full (failed ∨ g.Fails requests) := by
  induction requests generalizing g failed with
  | nil =>
    have hfailed : (failed ∨ g.Fails ([] : List (Request ε))) = failed := by simp [not_fails_nil]
    rwa [hfailed]
  | cons r requests ih =>
    obtain ⟨hfirst, hrest⟩ := List.forall_mem_cons.1 hr
    have hstep := ih (h.handle hfirst) hrest
    rwa [or_assoc, ← fails_cons_iff] at hstep

/-- When the code of a pattern has been requested, and then, any number of times, another limit or what was left, the
program is a subsequence of the code of the pattern, but for the destinations.  If nothing is left, it is all of that
exactly if none of the requests has failed. -/
theorem session_resumed (limit : Int) (p : Pattern) (hc : p.isComplete) (resumptions : List (Request ε))
    (hr : ∀ r ∈ resumptions, r.IsResumption) :
    let requests := Request.generate p :: resumptions
    let g := session limit requests
    g.asm.code.erased.Sublist p.skeleton ∧
    (g.agenda = [] → (g.asm.code.erased = p.skeleton ↔ ¬Fails { asm := { limit } } requests)) := by
  intro requests g
  let start : Generator := { asm := { limit } }
  have hstart : (start.prepend [p]).Resumable p.skeleton False := by
    refine ⟨⟨rfl, ?_⟩, ?_, fun _ => ?_, False.elim⟩
    · exact List.forall_mem_singleton.2 trivial
    · exact List.forall_mem_singleton.2 hc
    · simp [start, total, Generator.prepend, owedAll, Task.owed, Program.erased]
  have h : g.Resumable p.skeleton (start.Fails requests) := by
    have hfirst : (start.handle (.generate p : Request ε)).1.Resumable p.skeleton
        (False ∨ (start.handle (.generate p : Request ε)).2 ≠ none) := hstart.generate
    have hall := hfirst.handleAll hr
    rwa [false_or, ← fails_cons_iff] at hall
  refine ⟨(List.sublist_append_left _ _).trans h.sublist, fun hagenda => ?_⟩
  have htotal : g.total = g.asm.code.erased := by
    rw [total, hagenda]
    exact List.append_nil _
  rw [← htotal]
  constructor
  · intro heq hfails
    have hlt := (h.lost hfails).lt
    rw [heq] at hlt
    exact Nat.lt_irrefl _ hlt
  · exact h.kept

/-- An alternation and an option, five instructions together. -/
def branching : Pattern :=
  .alt (.char "a") (.opt .any)

/-- What is left is requested twice, the second time with more room. -/
def retries : List (Request Unit) :=
  [.generate (.seq []), .setLimit 9, .generate (.seq [])]

/-- There is room for a split and a letter.  The jump is lost, then the option, and in the end the alternation looks for
its jump in vain. -/
theorem session_resumed_branching :
    branching.isComplete ∧ (∀ r ∈ retries, r.IsResumption) ∧
    (session 2 (.generate branching :: retries)).agenda = [] ∧
    (session 2 (.generate branching :: retries)).asm.code.erased = [.split 0 0, .char "a"] ∧
    [.split 0 0, .char "a"].Sublist branching.skeleton ∧
    Fails { asm := { limit := 2 } } (.generate branching :: retries) := by
  have hc : branching.isComplete := rfl
  have hr : ∀ r ∈ retries, r.IsResumption := by simp [retries, Request.IsResumption]
  obtain ⟨hsublist, hwhole⟩ := session_resumed 2 branching hc retries hr
  have hagenda : (session 2 (.generate branching :: retries)).agenda = [] :=
    List.isEmpty_iff.1 (by decide +kernel)
  have hcode : (session 2 (.generate branching :: retries)).asm.code.erased = [.split 0 0, .char "a"] := by
    decide +kernel
  refine ⟨hc, hr, hagenda, hcode, hcode ▸ hsublist, ?_⟩
  refine Classical.byContradiction fun hnot => ?_
  have hfull := (hwhole hagenda).2 hnot
  rw [hcode] at hfull
  exact absurd hfull (by decide)

end Generator

end PatternMachine
