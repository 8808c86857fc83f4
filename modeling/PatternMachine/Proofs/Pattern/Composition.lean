import PatternMachine.Proofs.Pattern.Reading

/-!
# What is read from atoms

An atom of a text is an anchor, a dot or a character that is none of these (`Token.isAtom_of_mem`).  What holds of the
atoms and is kept by every way to put patterns together holds of all that is read from the text (`Composes.parse`), for
instance that no part of it is missing.
-/

namespace PatternMachine

/-! ### Atoms -/

/-- The patterns of the tokens that are no operators. -/
inductive IsAtom : Pattern → Prop where
  | char {c : Char} : ".^$".toList.contains c = false → IsAtom (.char (String.singleton c))
  | any : IsAtom .any
  | lineStart : IsAtom .lineStart
  | lineEnd : IsAtom .lineEnd

namespace Token

variable {c : Char} {cs text : List Char} {w : List Token} {p : Pattern}

theorem ofChar_eq_literal (hc : isEscapable c = false) (hc' : ".^$".toList.contains c = false) :
    ofChar c = literal c := by
  unfold ofChar
  split <;> simp_all [isEscapable]

/-- No anchor and no dot is an operator. -/
private theorem contains_eq_false_of_isEscapable (hc : isEscapable c) : ".^$".toList.contains c = false := by
  have hall : "\\()|+*?".toList.all (!".^$".toList.contains ·) := by decide
  have hmem := List.all_eq_true.1 hall c (List.contains_iff_mem.1 hc)
  rwa [Bool.not_eq_true'] at hmem

private theorem isAtom_of_spells (h : Spells cs (.atom p)) : IsAtom p := by
  generalize ht : Token.atom p = t at h
  cases h with
  | @plain c hc =>
    unfold ofChar at ht
    split at ht <;> cases ht
    · exact .any
    · exact .lineStart
    · exact .lineEnd
    · exact .char (by simp_all)
  | @escaped c hc =>
    cases ht
    exact .char (contains_eq_false_of_isEscapable hc)

theorem isAtom_of_mem (hw : ofText? text = some w) (hp : .atom p ∈ w) : IsAtom p := by
  have h := spellsAll_iff.2 hw
  clear hw
  induction h with
  | nil => cases hp
  | cons ht _ ih =>
    rcases List.mem_cons.1 hp with rfl | hp
    · exact isAtom_of_spells ht
    · exact ih hp

end Token

/-! ### Compositions -/

/-- A property of items (`true`) and of expressions (`false`) that passes from the parts of an expression to all that
the grammar makes of them. -/
structure Composes (P : Bool → Pattern → Prop) : Prop where
  quantified (q : Quantifier) {p : Pattern} : P true p → P true (q.apply p)
  seq {ps : List Pattern} (b : Bool) : ps ≠ [] → (∀ p ∈ ps, P true p) → P b (.seq ps)
  alt {ps : List Pattern} {p : Pattern} (b : Bool) : P false (.seq ps) → P false p → P b (.alt (.seq ps) p)

namespace Composes

variable {P : Bool → Pattern → Prop}

mutual

/-- What holds of the atoms holds of the items. -/
private theorem items (hP : Composes P) : ∀ {w : List Token} {ps : List Pattern}, Items w ps →
    (∀ p, .atom p ∈ w → P true p) → ∀ p ∈ ps, P true p
  | _, _, .nil, _ => List.forall_mem_nil _
  | _, _, @Items.atom w ps p h, hw => by
    have ih := items hP h fun x hx => hw x (List.mem_append_left _ hx)
    have hp := hw p (by simp)
    exact List.forall_mem_append.2 ⟨ih, List.forall_mem_singleton.2 hp⟩
  | _, _, @Items.quantified w ps p q h, hw => by
    have ih := items hP h fun x hx => hw x (List.mem_append_left _ hx)
    obtain ⟨hps, hp⟩ := List.forall_mem_append.1 ih
    have hq := hP.quantified q (List.forall_mem_singleton.1 hp)
    exact List.forall_mem_append.2 ⟨hps, List.forall_mem_singleton.2 hq⟩
  | _, _, @Items.emptyGroup w v ps h h', hw => items hP h fun x hx => hw x (List.mem_append_left _ hx)
  | _, _, @Items.group w v ps p h h', hw => by
    have ih := items hP h fun x hx => hw x (List.mem_append_left _ hx)
    have hp := body hP h' (fun x hx => hw x (by simp [hx])) p rfl true
    exact List.forall_mem_append.2 ⟨ih, List.forall_mem_singleton.2 hp⟩

/-- What holds of the atoms holds of the pattern of an expression, which can be an item as well. -/
private theorem body (hP : Composes P) : ∀ {w : List Token} {p? : Option Pattern}, Body w p? →
    (∀ p, .atom p ∈ w → P true p) → ∀ p, p? = some p → ∀ b, P b p
  | _, _, @Body.empty w h, _ => nofun
  | _, _, @Body.single w ps h hne, hw => by
    rintro _ ⟨⟩ b
    exact hP.seq b hne (items hP h hw)
  | _, _, @Body.emptyLast w v ps h hne h', hw => by
    rintro _ ⟨⟩ b
    have ih := items hP h fun x hx => hw x (List.mem_append_left _ hx)
    exact hP.seq b hne ih
  | _, _, @Body.more w v ps p h hne h', hw => by
    rintro _ ⟨⟩ b
    have ih := items hP h fun x hx => hw x (List.mem_append_left _ hx)
    have hrest := body hP h' (fun x hx => hw x (by simp [hx])) p rfl false
    exact hP.alt b (hP.seq false hne ih) hrest

end

theorem parse (hP : Composes P) {regex : String} {p : Pattern} (h : Pattern.parse regex = .ok p)
    (hatom : ∀ w, Token.ofText? regex.toList = some w → ∀ p, .atom p ∈ w → P true p) (b : Bool) : P b p := by
  obtain ⟨w, hw, hbody⟩ := Pattern.parse_eq_ok_iff.1 h
  exact hP.body hbody (hatom w hw) p rfl b

end Composes

namespace Pattern

private theorem composes_isComplete : Composes fun _ p => p.isComplete where
  quantified q p h := by
    cases q <;> exact h
  seq _ _ h := areComplete_iff.2 h
  alt _ h h' := Bool.and_eq_true_iff.2 ⟨h, h'⟩

theorem isComplete_of_parse {regex : String} {p : Pattern} (h : parse regex = .ok p) : p.isComplete := by
  refine composes_isComplete.parse h (fun w hw p hp => ?_) false
  cases Token.isAtom_of_mem hw hp <;> rfl

end Pattern

end PatternMachine
