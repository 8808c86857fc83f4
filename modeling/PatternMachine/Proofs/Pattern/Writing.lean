import PatternMachine.Pattern.Written
import PatternMachine.Proofs.Pattern.Composition

/-!
# Writing and reading again

The patterns that can be read are exactly those that can be written, and what is written is read as the same pattern.
That a pattern can be written passes from the atoms of a text to all that is read from it
(`Pattern.isWritable_of_parse`).  For the way back, the text of an item is read as this item behind any others
(`ReadsItems`), and the induction is on the pattern (`Pattern.parse_written`).
-/

namespace PatternMachine

open Token (SpellsAll)

/-! ### What is read can be written -/

namespace Pattern

theorem isWritable_char_iff {isItem : Bool} {text : String} :
    (char text).isWritable isItem ↔
      isItem = true ∧ ∃ c, text = String.singleton c ∧ ".^$".toList.contains c = false := by
  have hlength : text.length = 1 ↔ ∃ c, text = String.singleton c := by
    rw [← String.length_toList, List.length_eq_one_iff]
    refine exists_congr fun c => ?_
    rw [← String.toList_inj, String.toList_singleton]
  simp only [isWritable, Bool.and_eq_true, beq_iff_eq, hlength, and_assoc]
  refine and_congr_right fun _ => ?_
  constructor
  · rintro ⟨⟨c, rfl⟩, h⟩
    exact ⟨c, rfl, by simpa using h⟩
  · rintro ⟨c, rfl, h⟩
    exact ⟨⟨c, rfl⟩, by simpa using h⟩

theorem areWritable_iff {ps : List Pattern} : areWritable ps ↔ ∀ p ∈ ps, p.isWritable true := by
  induction ps with
  | nil => simp [areWritable]
  | cons p ps ih => simp [areWritable, ih]

theorem isWritable_seq_iff {isItem : Bool} {ps : List Pattern} :
    (seq ps).isWritable isItem ↔ ps ≠ [] ∧ areWritable ps := by
  simp [isWritable]

private theorem isWritable_alt_iff {isItem : Bool} {ps : List Pattern} {p : Pattern} :
    (alt (seq ps) p).isWritable isItem ↔ ps ≠ [] ∧ areWritable ps ∧ p.isWritable false := by
  simp [isWritable, and_assoc]

private theorem composes_isWritable : Composes fun b p => p.isWritable b where
  quantified q p h := by
    cases q <;> simpa [Quantifier.apply, isWritable] using h
  seq b hne h := isWritable_seq_iff.2 ⟨hne, areWritable_iff.2 h⟩
  alt b h h' := by
    obtain ⟨hne, hall⟩ := isWritable_seq_iff.1 h
    exact isWritable_alt_iff.2 ⟨hne, hall, h'⟩

theorem isWritable_of_parse {regex : String} {p : Pattern} (h : parse regex = .ok p) : p.isWritable false := by
  refine composes_isWritable.parse h (fun w hw p hp => ?_) false
  cases Token.isAtom_of_mem hw hp with
  | char hc => exact isWritable_char_iff.2 ⟨rfl, _, rfl, hc⟩
  | any | lineStart | lineEnd => rfl

end Pattern

/-! ### What is written is read again -/

/-- Behind any items, the text is read as these items. -/
def ReadsItems (text : List Char) (ps : List Pattern) : Prop :=
  ∃ w, SpellsAll text w ∧ ∀ v qs, Items v qs → Items (v ++ w) (qs ++ ps)

/-- The text is read as this expression. -/
def ReadsBody (text : List Char) (p : Pattern) : Prop :=
  ∃ w, SpellsAll text w ∧ Body w (some p)

section Reading

variable {text rest : List Char} {ps qs : List Pattern} {p : Pattern}

private theorem Token.spells_writtenChar {c : Char} (hc : ".^$".toList.contains c = false) :
    Spells (writtenChar c) (literal c) := by
  unfold writtenChar
  split
  · rename_i hescapable
    exact .escaped hescapable
  · rename_i hplain
    rw [Bool.not_eq_true] at hplain
    rw [← ofChar_eq_literal hplain hc]
    refine .plain ?_
    rintro rfl
    exact absurd hplain (by decide)

private theorem Token.Spells.singleton {cs : List Char} {t : Token} (h : Spells cs t) : SpellsAll cs [t] := by
  rw [← List.append_nil cs]
  exact .cons h .nil

private theorem Token.spellsAll_char (c : Char) (hc : c ≠ '\\') : SpellsAll [c] [ofChar c] :=
  (Spells.plain hc).singleton

namespace ReadsItems

private theorem nil : ReadsItems [] [] :=
  ⟨[], .nil, fun v qs h => by simpa using h⟩

private theorem append (h : ReadsItems text ps) (h' : ReadsItems rest qs) : ReadsItems (text ++ rest) (ps ++ qs) := by
  obtain ⟨w, hw, hps⟩ := h
  obtain ⟨x, hx, hqs⟩ := h'
  refine ⟨w ++ x, hw.append hx, fun v rs hv => ?_⟩
  rw [← List.append_assoc, ← List.append_assoc]
  exact hqs _ _ (hps v rs hv)

private theorem atom (h : Token.Spells text (.atom p)) : ReadsItems text [p] :=
  ⟨[.atom p], h.singleton, fun _ _ hv => .atom p hv⟩

private theorem quantified {k : Quantifier} (h : ReadsItems text [p]) (hk : Token.Spells rest (.quantifier k)) :
    ReadsItems (text ++ rest) [k.apply p] := by
  obtain ⟨w, hw, hp⟩ := h
  refine ⟨w ++ [.quantifier k], hw.append hk.singleton, fun v qs hv => ?_⟩
  rw [← List.append_assoc]
  exact .quantified k (hp v qs hv)

private theorem group (h : ReadsBody text p) : ReadsItems ('(' :: text ++ [')']) [p] := by
  obtain ⟨w, hw, hp⟩ := h
  have hleft := Token.spellsAll_char '(' (by decide)
  have hright := Token.spellsAll_char ')' (by decide)
  refine ⟨.left :: (w ++ [.right]), (hleft.append (hw.append hright)), fun v qs hv => .group hv hp⟩

end ReadsItems

namespace ReadsBody

private theorem seq (h : ReadsItems text ps) (hne : ps ≠ []) : ReadsBody text (.seq ps) := by
  obtain ⟨w, hw, hps⟩ := h
  exact ⟨w, hw, .single (hps [] [] .nil) hne⟩

private theorem alt (h : ReadsItems text ps) (hne : ps ≠ []) (h' : ReadsBody rest p) :
    ReadsBody (text ++ '|' :: rest) (.alt (.seq ps) p) := by
  obtain ⟨w, hw, hps⟩ := h
  obtain ⟨v, hv, hp⟩ := h'
  have hbar := Token.spellsAll_char '|' (by decide)
  exact ⟨w ++ .bar :: v, hw.append (hbar.append hv), .more (hps [] [] .nil) hne hp⟩

end ReadsBody

end Reading

namespace Pattern

mutual

private theorem readsItems_written : ∀ p : Pattern, p.isWritable true → ReadsItems (p.written true) [p]
  | char text, h => by
    obtain ⟨-, c, rfl, hc⟩ := isWritable_char_iff.1 h
    have hread := ReadsItems.atom (Token.spells_writtenChar hc)
    simpa [written] using hread
  | any, _ | lineStart, _ | lineEnd, _ => .atom (.plain (by decide))
  | plus body, h => by
    have ih := readsItems_written body h
    exact ih.quantified (k := .plus) (.plain (by decide))
  | star body, h => by
    have ih := readsItems_written body h
    exact ih.quantified (k := .star) (.plain (by decide))
  | opt body, h => by
    have ih := readsItems_written body h
    exact ih.quantified (k := .opt) (.plain (by decide))
  | alt (seq items) second, h => by
    obtain ⟨hne, hitems, hsecond⟩ := isWritable_alt_iff.1 h
    have ih := readsItems_writtenAll items hitems
    have ih' := readsBody_written second hsecond
    exact .group (.alt ih hne ih')
  | seq items, h => by
    obtain ⟨hne, hitems⟩ := isWritable_seq_iff.1 h
    have ih := readsItems_writtenAll items hitems
    exact .group (.seq ih hne)

private theorem readsBody_written : ∀ p : Pattern, p.isWritable false → ReadsBody (p.written false) p
  | alt (seq items) second, h => by
    obtain ⟨hne, hitems, hsecond⟩ := isWritable_alt_iff.1 h
    have ih := readsItems_writtenAll items hitems
    have ih' := readsBody_written second hsecond
    exact .alt ih hne ih'
  | seq items, h => by
    obtain ⟨hne, hitems⟩ := isWritable_seq_iff.1 h
    have ih := readsItems_writtenAll items hitems
    exact .seq ih hne

private theorem readsItems_writtenAll : ∀ ps : List Pattern, areWritable ps → ReadsItems (writtenAll ps) ps
  | [], _ => .nil
  | p :: ps, h => by
    rw [areWritable, Bool.and_eq_true] at h
    have ih := readsItems_written p h.1
    have ih' := readsItems_writtenAll ps h.2
    exact ih.append ih'

end

theorem parse_written {p : Pattern} (h : p.isWritable false) : parse (String.ofList (p.written false)) = .ok p := by
  obtain ⟨w, hw, hbody⟩ := readsBody_written p h
  refine parse_eq_ok_iff.2 ⟨w, ?_, hbody⟩
  rw [String.toList_ofList]
  exact Token.spellsAll_iff.1 hw

/-- The patterns that can be read are those that can be written, and what is written is read as the same pattern. -/
theorem parse_iff_isWritable (p : Pattern) :
    ((∃ regex, parse regex = .ok p) ↔ p.isWritable false) ∧
    (parse (String.ofList (p.written false)) = .ok p ↔ p.isWritable false) :=
  ⟨⟨fun ⟨_, h⟩ => isWritable_of_parse h, fun h => ⟨_, parse_written h⟩⟩, isWritable_of_parse, parse_written⟩

end Pattern

end PatternMachine
