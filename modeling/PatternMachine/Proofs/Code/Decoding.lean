import Mathlib.Data.List.Basic
import PatternMachine.Pattern.Splice
import PatternMachine.Proofs.Code.Assembly

/-!
# What the code tells of the pattern

The code of a pattern tells everything but how its items were grouped.  It begins with the code of one item, and how
that one goes on and where it ends (`Opening`) can be told from the instructions alone (`Opening.eq_of_begins`): a plus
by the last split that leads back to the beginning; a star, an alternative and an option by what stands before the
address that the split at the beginning leads to.  That is a jump back to this split under a star, and a jump onwards
for an alternative.  An option may have such a jump there as well, to its own end, but then there is a split in it that
leads to that end too (`Pattern.exists_split_of_jump`), and in the first branch of an alternative there is none.
-/

namespace PatternMachine

namespace Pattern

/-! ### Splicing keeps the code -/

private theorem codeAll_append (ps qs : List Pattern) (b : Nat) :
    codeAll b (ps ++ qs) = codeAll b ps ++ codeAll (b + widthAll ps) qs := by
  induction ps generalizing b with
  | nil => simp [codeAll, widthAll]
  | cons p ps ih => simp [codeAll, widthAll, ih, Nat.add_assoc]

private theorem areComplete_append {ps qs : List Pattern} :
    areComplete (ps ++ qs) ↔ areComplete ps ∧ areComplete qs := by
  induction ps with
  | nil => simp [areComplete]
  | cons p ps ih => simp_all [areComplete, and_assoc]

private theorem widthAll_eq_of_code {ps : List Pattern} {p : Pattern} {b : Nat} (h : codeAll b ps = p.code b) :
    widthAll ps = p.width := by
  rw [← length_codeAll ps b, h, length_code]

mutual

private theorem codeAll_splice (p : Pattern) (b : Nat) : codeAll b p.splice = p.code b := by
  cases p with
  | plus body | star body | opt body =>
    have hwidth := widthAll_eq_of_code (codeAll_splice body b)
    simp [splice, codeAll, code, width, hwidth, codeAll_splice body]
  | alt first second =>
    have hfirst := widthAll_eq_of_code (codeAll_splice first b)
    have hsecond := widthAll_eq_of_code (codeAll_splice second b)
    simp [splice, codeAll, code, width, hfirst, hsecond, codeAll_splice first, codeAll_splice second]
  | seq items => exact codeAll_spliceAll items b
  | char _ | any | lineStart | lineEnd | hole => rfl

private theorem codeAll_spliceAll (ps : List Pattern) (b : Nat) : codeAll b (spliceAll ps) = codeAll b ps := by
  cases ps with
  | nil => rfl
  | cons p ps =>
    have hwidth := widthAll_eq_of_code (codeAll_splice p b)
    rw [spliceAll, codeAll_append, codeAll_splice p, hwidth, codeAll_spliceAll ps, codeAll]

end

end Pattern

/-! ### Destinations -/

/-- Whatever a jump or a split leads to is among the addresses. -/
def Instr.LeadsWithin (low high : Nat) : Instr → Prop
  | jump target => low ≤ target ∧ target ≤ high
  | split first second => (low ≤ first ∧ first ≤ high) ∧ low ≤ second ∧ second ≤ high
  | char _ | any | lineStart | lineEnd | accept | illegal => True

private theorem Instr.LeadsWithin.mono {i : Instr} {low high low' high' : Nat} (h : i.LeadsWithin low high)
    (hlow : low' ≤ low) (hhigh : high ≤ high') : i.LeadsWithin low' high' := by
  cases i with
  | jump _ | split _ _ =>
    simp only [LeadsWithin] at h ⊢
    omega
  | char _ | any | lineStart | lineEnd | accept | illegal => trivial

namespace Pattern

mutual

/-- The code of a pattern leads nowhere but into itself and to its end. -/
private theorem leadsWithin_of_mem_code : ∀ (p : Pattern) {b : Nat} {i : Instr}, i ∈ p.code b →
    i.LeadsWithin b (b + p.width)
  | char _, _, _, h | any, _, _, h | lineStart, _, _, h | lineEnd, _, _, h => by
    rw [code, List.mem_singleton] at h
    subst h
    trivial
  | plus body, b, i, h => by
    rw [code, List.mem_append, List.mem_singleton] at h
    rcases h with h | rfl
    · exact (leadsWithin_of_mem_code body h).mono (Nat.le_refl b) (by rw [width]; omega)
    · simp only [Instr.LeadsWithin, width]
      omega
  | star body, b, i, h => by
    rw [code, List.mem_cons, List.mem_append, List.mem_singleton] at h
    rcases h with rfl | h | rfl
    · simp only [Instr.LeadsWithin, width]
      omega
    · exact (leadsWithin_of_mem_code body h).mono (by omega) (by rw [width]; omega)
    · simp only [Instr.LeadsWithin, width]
      omega
  | opt body, b, i, h => by
    rw [code, List.mem_cons] at h
    rcases h with rfl | h
    · simp only [Instr.LeadsWithin, width]
      omega
    · exact (leadsWithin_of_mem_code body h).mono (by omega) (by rw [width]; omega)
  | alt first second, b, i, h => by
    rw [code, List.mem_cons, List.mem_append, List.mem_cons] at h
    rcases h with rfl | h | rfl | h
    · simp only [Instr.LeadsWithin, width]
      omega
    · exact (leadsWithin_of_mem_code first h).mono (by omega) (by rw [width]; omega)
    · simp only [Instr.LeadsWithin, width]
      omega
    · exact (leadsWithin_of_mem_code second h).mono (by omega) (by rw [width]; omega)
  | seq items, b, i, h => leadsWithin_of_mem_codeAll items h
  | hole, _, _, h => by cases h

private theorem leadsWithin_of_mem_codeAll : ∀ (ps : List Pattern) {b : Nat} {i : Instr}, i ∈ codeAll b ps →
    i.LeadsWithin b (b + widthAll ps)
  | [], _, _, h => by cases h
  | p :: ps, b, i, h => by
    rw [codeAll, List.mem_append] at h
    rcases h with h | h
    · exact (leadsWithin_of_mem_code p h).mono (Nat.le_refl b) (by rw [widthAll]; omega)
    · exact (leadsWithin_of_mem_codeAll ps h).mono (by omega) (by rw [widthAll]; omega)

end

mutual

/-- A pattern whose code ends in a jump to its end has a split that leads there. -/
theorem exists_split_of_jump : ∀ (p : Pattern) {b : Nat},
    (p.code b).getLast? = some (.jump (b + p.width : Nat)) → ∃ first, .split first (b + p.width : Nat) ∈ p.code b
  | char _, _, h | any, _, h | lineStart, _, h | lineEnd, _, h | hole, _, h => by simp [code] at h
  | plus body, _, h => by simp [code] at h
  | star body, b, h => by
    rw [code, ← List.cons_append, List.getLast?_concat, width, Option.some.injEq, Instr.jump.injEq] at h
    omega
  | opt body, b, _ => ⟨_, List.mem_cons_self⟩
  | alt first second, b, h => by
    by_cases hempty : second.code (b + first.width + 2) = []
    · -- the last instruction is its own jump, and its split leads behind it
      have hwidth : second.width = 0 := by rw [← length_code second (b + first.width + 2), hempty, List.length_nil]
      refine ⟨(b + 1 : Nat), ?_⟩
      rw [code, width, hwidth]
      exact List.mem_cons_self
    · have hend : b + (alt first second).width = b + first.width + 2 + second.width := by
        rw [width]
        omega
      have hcode : (alt first second).code b = (.split (b + 1 : Nat) (b + first.width + 2 : Nat) ::
          (first.code (b + 1) ++ [.jump (b + first.width + second.width + 2 : Nat)])) ++
            second.code (b + first.width + 2) := by
        simp [code]
      rw [hend, hcode] at h ⊢
      rw [List.getLast?_append_of_ne_nil _ hempty] at h
      obtain ⟨f, hf⟩ := exists_split_of_jump second h
      exact ⟨f, List.mem_append_right _ hf⟩
  | seq items, _, h => exists_split_of_jumpAll items h

private theorem exists_split_of_jumpAll : ∀ (ps : List Pattern) {b : Nat},
    (codeAll b ps).getLast? = some (.jump (b + widthAll ps : Nat)) →
      ∃ first, .split first (b + widthAll ps : Nat) ∈ codeAll b ps
  | [], _, h => by simp [codeAll] at h
  | p :: ps, b, h => by
    rw [codeAll] at h ⊢
    by_cases hempty : codeAll (b + p.width) ps = []
    · have hwidth : widthAll ps = 0 := by rw [← length_codeAll ps (b + p.width), hempty, List.length_nil]
      rw [widthAll, hwidth, hempty, List.append_nil] at h
      obtain ⟨f, hf⟩ := exists_split_of_jump p h
      refine ⟨f, ?_⟩
      rw [widthAll, hwidth]
      exact List.mem_append_left _ hf
    · rw [List.getLast?_append_of_ne_nil _ hempty, widthAll, ← Nat.add_assoc] at h
      obtain ⟨f, hf⟩ := exists_split_of_jumpAll ps h
      refine ⟨f, ?_⟩
      rw [widthAll, ← Nat.add_assoc]
      exact List.mem_append_right _ hf

end

end Pattern

/-! ### How a sequence opens -/

/-- The first item of a sequence, as far as it has an instruction of its own: what kind of item it is, and how many
instructions its parts have. -/
inductive Opening where
  | leaf (i : Instr)
  | plus (n : Nat)
  | star (n : Nat)
  | opt (n : Nat)
  | alt (m n : Nat)

/-- What a pattern is as the first item of a sequence. -/
def Pattern.opening? : Pattern → Option Opening
  | char text => some (.leaf (.char text))
  | any => some (.leaf .any)
  | lineStart => some (.leaf .lineStart)
  | lineEnd => some (.leaf .lineEnd)
  | plus body => some (.plus body.width)
  | star body => some (.star body.width)
  | opt body => some (.opt body.width)
  | alt first second => some (.alt first.width second.width)
  | seq _ | hole => none

/-- No split of the list leads to the address. -/
def NoneBack (b : Nat) (l : List Instr) : Prop :=
  ∀ i ∈ l, ∀ second, i ≠ .split b second

private theorem noneBack_cons {b : Nat} {i : Instr} {l : List Instr} :
    NoneBack b (i :: l) ↔ (∀ second, i ≠ .split b second) ∧ NoneBack b l := by
  simp [NoneBack]

private theorem noneBack_append {b : Nat} {l l' : List Instr} :
    NoneBack b (l ++ l') ↔ NoneBack b l ∧ NoneBack b l' := by
  simp [NoneBack, or_imp, forall_and]

/-- Code that begins behind the address does not lead back there. -/
private theorem Pattern.noneBack_codeAll (ps : List Pattern) {b base : Nat} (h : b < base) :
    NoneBack b (codeAll base ps) := by
  rintro i hi second rfl
  have hwithin := (leadsWithin_of_mem_codeAll ps hi).1.1
  omega

private theorem Pattern.noneBack_code (p : Pattern) {b base : Nat} (h : b < base) : NoneBack b (p.code base) := by
  rw [← codeAll_splice]
  exact noneBack_codeAll p.splice h

namespace Opening

/-- The number of instructions of the item. -/
def width : Opening → Nat
  | leaf _ => 1
  | plus n | opt n => n + 1
  | star n => n + 2
  | alt m n => m + n + 2

/-- What the code at an address looks like that opens in this way. -/
def Begins (b : Nat) (l : List Instr) : Opening → Prop
  | leaf i => NoneBack b l ∧ (∀ first second, i ≠ .split first second) ∧ ∃ t, l = i :: t
  | plus n => ∃ c t second, l = c ++ .split b second :: t ∧ c.length = n ∧ NoneBack b t
  | star n => NoneBack b l ∧ ∃ c t, l = .split (b + 1 : Nat) (b + n + 2 : Nat) :: (c ++ .jump b :: t) ∧ c.length = n
  | opt n => NoneBack b l ∧ ∃ c t, l = .split (b + 1 : Nat) (b + n + 1 : Nat) :: (c ++ t) ∧ c.length = n ∧
      (∀ i ∈ c, i.LeadsWithin (b + 1) (b + n + 1)) ∧
      (c.getLast? = some (.jump (b + n + 1 : Nat)) → ∃ first, .split first (b + n + 1 : Nat) ∈ c)
  | alt m n => NoneBack b l ∧ ∃ c t, l = .split (b + 1 : Nat) (b + m + 2 : Nat) ::
      (c ++ .jump (b + m + n + 2 : Nat) :: t) ∧ c.length = m ∧ ∀ i ∈ c, i.LeadsWithin (b + 1) (b + m + 1)

/-- How far the split leads that the code begins with. -/
def reach? : Opening → Option Nat
  | leaf _ | plus _ => none
  | star n => some (n + 2)
  | opt n => some (n + 1)
  | alt m _ => some (m + 2)

section Begins

variable {b m n k : Nat} {l : List Instr} {x y : Opening}

private theorem not_plus_of_noneBack (h : NoneBack b l) : ¬(plus n).Begins b l := by
  rintro ⟨c, t, second, rfl, -, -⟩
  exact h _ (List.mem_append_right c List.mem_cons_self) second rfl

private theorem split_of_begins (h : x.Begins b l) (hx : x.reach? = some k) :
    NoneBack b l ∧ ∃ t, l = .split (b + 1 : Nat) (b + k : Nat) :: t := by
  cases x with
  | leaf _ | plus _ => cases hx
  | star _ | opt _ | alt _ _ =>
    cases hx
    obtain ⟨hback, c, t, hl, -⟩ := h
    exact ⟨hback, _, hl⟩

/-- The kinds of items that begin with a split cannot be taken for others. -/
private theorem reach?_of_begins (hx : x.Begins b l) (hy : y.Begins b l) (hreach : x.reach? = some k) :
    y.reach? = some k := by
  obtain ⟨hback, t, rfl⟩ := split_of_begins hx hreach
  cases y with
  | leaf i =>
    obtain ⟨-, hi, t', ht⟩ := hy
    injection ht with hhead
    exact absurd hhead.symm (hi _ _)
  | plus n => exact absurd hy (not_plus_of_noneBack hback)
  | star _ | opt _ | alt _ _ =>
    obtain ⟨-, t', ht⟩ := split_of_begins hy rfl
    injection ht with hsplit
    injection hsplit with _ hsecond
    rw [reach?, Option.some.injEq]
    omega

private theorem eq_concat {c c' t t' : List Instr} {i : Instr} (h : c ++ t = c' ++ i :: t')
    (hlength : c.length = c'.length + 1) : c = c' ++ [i] := by
  rw [← List.singleton_append, ← List.append_assoc] at h
  exact (List.append_inj h (by simp [hlength])).1

/-- The jump back of a star would stand in the body of the option. -/
private theorem not_star_of_opt (ho : (opt n).Begins b l) : ¬(star m).Begins b l := by
  rintro ⟨-, c', t', hl', hlength'⟩
  obtain ⟨-, c, t, hl, hlength, hwithin, -⟩ := ho
  rw [hl, List.cons.injEq, Instr.split.injEq] at hl'
  obtain ⟨⟨-, hsecond⟩, htail⟩ := hl'
  have hc := eq_concat htail (by omega)
  have hjump : Instr.LeadsWithin (b + 1) (b + n + 1) (.jump b) := hwithin _ (by rw [hc]; simp)
  have := hjump.1
  omega

private theorem not_star_of_alt (ha : (alt m k).Begins b l) : ¬(star n).Begins b l := by
  rintro ⟨-, c', t', hl', hlength'⟩
  obtain ⟨-, c, t, hl, hlength, -⟩ := ha
  rw [hl, List.cons.injEq, Instr.split.injEq] at hl'
  obtain ⟨⟨-, hsecond⟩, htail⟩ := hl'
  obtain ⟨-, hrest⟩ := List.append_inj htail (by omega)
  injection hrest with hjump
  injection hjump with htarget
  omega

/-- If the body of an option ends in a jump to its end, a split in it leads there too, but no split of the first
branch of an alternative leads as far as the second one. -/
private theorem not_opt_of_alt (ha : (alt m k).Begins b l) : ¬(opt n).Begins b l := by
  rintro ⟨-, c, t, hl, hlength, hwithin, hlast⟩
  obtain ⟨-, c', t', hl', hlength', hwithin'⟩ := ha
  rw [hl, List.cons.injEq, Instr.split.injEq] at hl'
  obtain ⟨⟨-, hsecond⟩, htail⟩ := hl'
  have hc := eq_concat htail (by omega)
  have hjump : Instr.LeadsWithin (b + 1) (b + n + 1) (.jump (b + m + k + 2 : Nat)) := hwithin _ (by rw [hc]; simp)
  have htarget : b + m + k + 2 = b + n + 1 := by
    have := hjump.2
    omega
  obtain ⟨first, hfirst⟩ := hlast (by rw [hc, List.getLast?_concat, htarget])
  have hsplit : Instr.split first (b + n + 1 : Nat) ∈ c' := by
    rw [hc, List.mem_append, List.mem_singleton] at hfirst
    exact hfirst.resolve_right nofun
  have hbound := (hwithin' _ hsplit).2.2
  omega

/-- A plus ends at the last split that leads back to its beginning. -/
private theorem le_of_plus (hn : (plus n).Begins b l) (hm : (plus m).Begins b l) : m ≤ n := by
  obtain ⟨c, t, second, rfl, hlength, ht⟩ := hn
  obtain ⟨c', t', second', hl, hlength', -⟩ := hm
  rcases List.append_eq_append_iff.1 hl with ⟨d, hc, hrest⟩ | ⟨d, hc, -⟩
  · cases d with
    | nil =>
      rw [hc, List.append_nil] at hlength'
      omega
    | cons i d =>
      injection hrest with _ htail
      exact absurd rfl (ht (.split b second') (by rw [htail]; simp) second')
  · rw [hc, List.length_append] at hlength
    omega

/-- Code opens in one way only. -/
theorem eq_of_begins (hx : x.Begins b l) (hy : y.Begins b l) : x = y := by
  cases x with
  | leaf i =>
    cases y with
    | leaf j =>
      obtain ⟨-, -, t, rfl⟩ := hx
      obtain ⟨-, -, t', ht⟩ := hy
      injection ht with hij
      rw [hij]
    | plus n => exact absurd hy (not_plus_of_noneBack hx.1)
    | star _ | opt _ | alt _ _ => cases reach?_of_begins hy hx rfl
  | plus n =>
    cases y with
    | plus n' => rw [Nat.le_antisymm (le_of_plus hy hx) (le_of_plus hx hy)]
    | leaf _ | star _ | opt _ | alt _ _ => exact absurd hx (not_plus_of_noneBack hy.1)
  | star n =>
    have hreach := reach?_of_begins hx hy rfl
    cases y with
    | leaf _ | plus _ => cases hreach
    | star n' =>
      cases hreach
      rfl
    | opt n' => exact absurd hx (not_star_of_opt hy)
    | alt m n' => exact absurd hx (not_star_of_alt hy)
  | opt n =>
    have hreach := reach?_of_begins hx hy rfl
    cases y with
    | leaf _ | plus _ => cases hreach
    | star n' => exact absurd hy (not_star_of_opt hx)
    | opt n' =>
      cases hreach
      rfl
    | alt m n' => exact absurd hx (not_opt_of_alt hy)
  | alt m n =>
    have hreach := reach?_of_begins hx hy rfl
    cases y with
    | leaf _ | plus _ => cases hreach
    | star n' => exact absurd hy (not_star_of_alt hx)
    | opt n' => exact absurd hy (not_opt_of_alt hx)
    | alt m' n' =>
      cases hreach
      obtain ⟨-, c, t, rfl, hlength, -⟩ := hx
      obtain ⟨-, c', t', hl, hlength', -⟩ := hy
      injection hl with _ htail
      obtain ⟨-, hrest⟩ := List.append_inj htail (by omega)
      injection hrest with hjump
      injection hjump with htarget
      congr 1
      omega

end Begins

end Opening

namespace Pattern

variable {p q : Pattern} {b : Nat} {x : Opening}

private theorem width_of_opening? (h : p.opening? = some x) : p.width = x.width := by
  cases p with
  | seq _ | hole => cases h
  | char _ | any | lineStart | lineEnd | plus _ | star _ | opt _ | alt _ _ =>
    cases h
    rfl

private theorem width_pos_of_opening? (h : p.opening? = some x) : 0 < p.width := by
  rw [width_of_opening? h]
  cases x <;> simp [Opening.width]

/-- The code of patterns opens as the first of them does. -/
private theorem begins_code (h : p.opening? = some x) (ps : List Pattern) :
    x.Begins b (p.code b ++ codeAll (b + p.width) ps) := by
  have hpos := width_pos_of_opening? h
  have hrest : NoneBack b (codeAll (b + p.width) ps) := noneBack_codeAll ps (by omega)
  have hnext : (b + 1 : Int) ≠ b := by omega
  cases p with
  | char _ | any | lineStart | lineEnd =>
    cases h
    refine ⟨?_, nofun, _, rfl⟩
    exact noneBack_cons.2 ⟨nofun, hrest⟩
  | plus body =>
    cases h
    exact ⟨body.code b, _, _, by rw [code, List.append_assoc, List.singleton_append], length_code body b, hrest⟩
  | star body =>
    cases h
    have hbody : NoneBack b (body.code (b + 1)) := noneBack_code body (by omega)
    rw [code, List.cons_append, List.append_assoc, List.singleton_append]
    refine ⟨?_, body.code (b + 1), _, rfl, length_code body _⟩
    simp [noneBack_cons, noneBack_append, hrest, hbody, hnext]
  | opt body =>
    cases h
    have hbody : NoneBack b (body.code (b + 1)) := noneBack_code body (by omega)
    rw [code, List.cons_append]
    refine ⟨?_, body.code (b + 1), _, rfl, length_code body _, ?_, ?_⟩
    · simp [noneBack_cons, noneBack_append, hrest, hbody, hnext]
    · exact fun i hi => (leadsWithin_of_mem_code body hi).mono (Nat.le_refl _) (by omega)
    · rw [Nat.add_right_comm]
      exact exists_split_of_jump body
  | alt first second =>
    cases h
    have hfirst : NoneBack b (first.code (b + 1)) := noneBack_code first (by omega)
    have hsecond : NoneBack b (second.code (b + first.width + 2)) := noneBack_code second (by omega)
    rw [code, List.cons_append, List.append_assoc, List.cons_append]
    refine ⟨?_, first.code (b + 1), _, rfl, length_code first _, ?_⟩
    · simp [noneBack_cons, noneBack_append, hrest, hfirst, hsecond, hnext]
    · exact fun i hi => (leadsWithin_of_mem_code first hi).mono (Nat.le_refl _) (by omega)
  | seq _ | hole => cases h

/-! ### Decoding -/

/-- A pattern is an item followed by others. -/
structure OpensWith (p item : Pattern) (rest : List Pattern) : Prop where
  opening : ∃ x, item.opening? = some x
  complete : item.isComplete
  rest_complete : areComplete rest
  splice_eq : p.splice = item.splice ++ spliceAll rest
  code_eq : ∀ b, p.code b = item.code b ++ codeAll (b + item.width) rest

namespace OpensWith

variable {item : Pattern} {rest ps : List Pattern}

private theorem width_eq (h : p.OpensWith item rest) : p.width = item.width + widthAll rest := by
  rw [← length_code p 0, h.code_eq, List.length_append, length_code, length_codeAll]

private theorem item_pos (h : p.OpensWith item rest) : 0 < item.width := by
  obtain ⟨x, hx⟩ := h.opening
  exact width_pos_of_opening? hx

/-- What comes after the pattern comes after its items. -/
private theorem append (h : p.OpensWith item rest) (hps : areComplete ps) :
    (seq (p :: ps)).OpensWith item (rest ++ ps) where
  opening := h.opening
  complete := h.complete
  rest_complete := areComplete_append.2 ⟨h.rest_complete, hps⟩
  splice_eq := by rw [splice, spliceAll, h.splice_eq, spliceAll_append, List.append_assoc]
  code_eq b := by rw [code, codeAll, h.code_eq, codeAll_append, h.width_eq, List.append_assoc, Nat.add_assoc]

/-- What comes before the items is left out if it is empty. -/
private theorem cons_empty (h : (seq ps).OpensWith item rest) (hsplice : p.splice = []) (hwidth : p.width = 0) :
    (seq (p :: ps)).OpensWith item rest where
  opening := h.opening
  complete := h.complete
  rest_complete := h.rest_complete
  splice_eq := by
    rw [splice, spliceAll, hsplice, List.nil_append]
    exact h.splice_eq
  code_eq b := by
    have hcode : p.code b = [] := List.eq_nil_of_length_eq_zero (by rw [length_code, hwidth])
    rw [code, codeAll, hcode, List.nil_append, hwidth]
    exact h.code_eq b

end OpensWith

mutual

/-- A pattern either consists of nothing or begins with an item. -/
private theorem empty_or_opensWith (p : Pattern) (hc : p.isComplete) :
    (p.splice = [] ∧ p.width = 0) ∨ ∃ item rest, p.OpensWith item rest := by
  cases p with
  | char _ | any | lineStart | lineEnd | plus _ | star _ | opt _ | alt _ _ =>
    right
    exact ⟨_, [], ⟨_, rfl⟩, hc, rfl, (List.append_nil _).symm, fun b => (List.append_nil _).symm⟩
  | seq items => exact empty_or_opensWithAll items hc
  | hole => cases hc

private theorem empty_or_opensWithAll (ps : List Pattern) (hc : areComplete ps) :
    (spliceAll ps = [] ∧ widthAll ps = 0) ∨ ∃ item rest, (seq ps).OpensWith item rest := by
  cases ps with
  | nil => exact .inl ⟨rfl, rfl⟩
  | cons p ps =>
    rw [areComplete, Bool.and_eq_true] at hc
    rcases empty_or_opensWith p hc.1 with ⟨hsplice, hwidth⟩ | ⟨item, rest, h⟩
    · rcases empty_or_opensWithAll ps hc.2 with ⟨hsplices, hwidths⟩ | ⟨item, rest, h⟩
      · left
        rw [spliceAll, widthAll, hsplice, hsplices, hwidth, hwidths]
        exact ⟨rfl, rfl⟩
      · exact .inr ⟨item, rest, h.cons_empty hsplice hwidth⟩
    · exact .inr ⟨item, rest ++ ps, h.append hc.2⟩

end

/-- Items that open in the same way and have the same code are equal, if the parts of them are that have the same
code. -/
private theorem splice_eq_of_opening? (hp : p.opening? = some x) (hq : q.opening? = some x) (hpc : p.isComplete)
    (hqc : q.isComplete) (h : p.code b = q.code b)
    (ih : ∀ {p' q' : Pattern}, p'.width < p.width → p'.isComplete → q'.isComplete → ∀ {b}, p'.code b = q'.code b →
      p'.splice = q'.splice) : p.splice = q.splice := by
  cases p with
  | char _ | any | lineStart | lineEnd =>
    cases hp
    cases q <;> cases hq
    rfl
  | plus body =>
    cases hp
    cases q with
    | plus body' =>
      injection hq with hx
      injection hx with hwidth
      rw [code, code] at h
      obtain ⟨hbody, -⟩ := List.append_inj h (by rw [length_code, length_code, hwidth])
      have hsplice : body.splice = body'.splice := ih (by rw [width]; omega) hpc hqc hbody
      rw [splice, splice, hsplice]
    | _ => cases hq
  | star body =>
    cases hp
    cases q with
    | star body' =>
      injection hq with hx
      injection hx with hwidth
      rw [code, code, List.cons.injEq] at h
      obtain ⟨hbody, -⟩ := List.append_inj h.2 (by rw [length_code, length_code, hwidth])
      have hsplice : body.splice = body'.splice := ih (by rw [width]; omega) hpc hqc hbody
      rw [splice, splice, hsplice]
    | _ => cases hq
  | opt body =>
    cases hp
    cases q with
    | opt body' =>
      rw [code, code, List.cons.injEq] at h
      have hsplice : body.splice = body'.splice := ih (by rw [width]; omega) hpc hqc h.2
      rw [splice, splice, hsplice]
    | _ => cases hq
  | alt first second =>
    cases hp
    cases q with
    | alt first' second' =>
      injection hq with hx
      injection hx with hfirst hsecond
      rw [isComplete, Bool.and_eq_true] at hpc hqc
      rw [code, code, List.cons.injEq] at h
      obtain ⟨hfirsts, hrest⟩ := List.append_inj h.2 (by rw [length_code, length_code, hfirst])
      rw [List.cons.injEq, hfirst] at hrest
      have hsplice : first.splice = first'.splice := ih (by rw [width]; omega) hpc.1 hqc.1 hfirsts
      have hsplice' : second.splice = second'.splice := ih (by rw [width]; omega) hpc.2 hqc.2 hrest.2
      rw [splice, splice, hsplice, hsplice']
    | _ => cases hq
  | seq _ | hole => cases hp

/-- Patterns with the same code differ in the grouping of their items only. -/
private theorem splice_eq_of_code_eq {p q : Pattern} (hp : p.isComplete) (hq : q.isComplete) {b : Nat}
    (h : p.code b = q.code b) : p.splice = q.splice := by
  induction hn : p.width using Nat.strongRecOn generalizing p q b with
  | ind n ih =>
    subst hn
    have hwidth : p.width = q.width := by rw [← length_code p b, h, length_code]
    rcases empty_or_opensWith p hp with ⟨hpsplice, hpwidth⟩ | ⟨item, rest, hpopen⟩
    · rcases empty_or_opensWith q hq with ⟨hqsplice, -⟩ | ⟨item', rest', hqopen⟩
      · rw [hpsplice, hqsplice]
      · have := hqopen.width_eq
        have := hqopen.item_pos
        omega
    · rcases empty_or_opensWith q hq with ⟨-, hqwidth⟩ | ⟨item', rest', hqopen⟩
      · have := hpopen.width_eq
        have := hpopen.item_pos
        omega
      · obtain ⟨x, hx⟩ := hpopen.opening
        obtain ⟨y, hy⟩ := hqopen.opening
        have hpos := hpopen.item_pos
        have hpwidth := hpopen.width_eq
        rw [hpopen.code_eq, hqopen.code_eq] at h
        have hxy : x = y := by
          have hbegins : x.Begins b _ := begins_code hx rest
          rw [h] at hbegins
          exact Opening.eq_of_begins hbegins (begins_code hy rest')
        subst hxy
        have hitem : item.width = item'.width := by rw [width_of_opening? hx, width_of_opening? hy]
        obtain ⟨hcode, hrest⟩ := List.append_inj h (by rw [length_code, length_code, hitem])
        rw [← hitem] at hrest
        have hsplice : item.splice = item'.splice :=
          splice_eq_of_opening? hx hy hpopen.complete hqopen.complete hcode
            fun hlt hp' hq' _ h' => ih _ (by omega) hp' hq' h' rfl
        have hsplices : (seq rest).splice = (seq rest').splice :=
          ih (widthAll rest) (by omega) hpopen.rest_complete hqopen.rest_complete hrest rfl
        rw [hpopen.splice_eq, hqopen.splice_eq, hsplice]
        exact congrArg _ hsplices

/-- Programs are equal exactly if the patterns are, once the items of every sequence stand in the sequence that
contains it. -/
theorem compile_eq_iff (p q : Pattern) (hp : p.isComplete) (hq : q.isComplete) (limit limit' : Int)
    (program program' : Program) (h : p.compile limit = .ok program) (h' : q.compile limit' = .ok program') :
    program = program' ↔ p.splice = q.splice := by
  rw [eq_of_compile hp h, eq_of_compile hq h']
  constructor
  · intro heq
    have hcode := List.append_cancel_right (Array.toList_inj.2 heq)
    exact splice_eq_of_code_eq hp hq hcode
  · intro hsplice
    rw [← codeAll_splice p, ← codeAll_splice q, hsplice]

/-- An option whose body ends with a jump to the end. -/
def optionalBranch : Pattern :=
  .opt (.alt .any (.seq []))

/-- The code differs from that of the option in a single destination. -/
def branchOfOption : Pattern :=
  .alt (.opt .any) (.seq [])

theorem optionalBranch_decoded :
    (seq [.seq [], .seq [optionalBranch]]).compile = optionalBranch.compile ∧
    optionalBranch.compile = .ok #[.split 1 4, .split 2 4, .any, .jump 4, .accept] ∧
    branchOfOption.compile = .ok #[.split 1 4, .split 2 3, .any, .jump 4, .accept] ∧
    optionalBranch.compile ≠ branchOfOption.compile := by
  have hgroup : (seq [.seq [], .seq [optionalBranch]]).compile = .ok _ := compile_of_isComplete rfl _
  have hoption : optionalBranch.compile = .ok #[.split 1 4, .split 2 4, .any, .jump 4, .accept] :=
    compile_of_isComplete rfl _
  have hbranch : branchOfOption.compile = .ok #[.split 1 4, .split 2 3, .any, .jump 4, .accept] :=
    compile_of_isComplete rfl _
  refine ⟨?_, hoption, hbranch, fun heq => ?_⟩
  · rw [hgroup, hoption, (compile_eq_iff _ optionalBranch rfl rfl _ _ _ _ hgroup hoption).2 rfl]
  · rw [hoption, hbranch] at heq
    have hsplice := (compile_eq_iff optionalBranch branchOfOption rfl rfl _ _ _ _ hoption hbranch).1
      (Except.ok.inj heq)
    cases hsplice

end Pattern

end PatternMachine
