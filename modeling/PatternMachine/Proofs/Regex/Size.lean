import PatternMachine.Proofs.Pattern.Writing
import PatternMachine.Proofs.Regex.Outcome

/-!
# How long a program can become

A program is at most twice as long as its regular expression (`Regex.size_compile_le`).  Every token pays for two
instructions.  That is what a quantifier and a bar cost at most; an atom costs one and has one to spare, and so has
every item made of it, which pays for the instruction to accept behind an expression and for the items of its own level
(`Pattern.widthAll_add_length_le`).  A letter with any number of stars behind it spends all it has, so there is no
better bound (`Regex.exists_compile_starredText_iff`).
-/

namespace PatternMachine

/-! ### What the tokens pay for -/

namespace Pattern

private theorem width_apply_le (q : Quantifier) (p : Pattern) : (q.apply p).width ≤ p.width + 2 := by
  cases q <;> simp [Quantifier.apply, width]

mutual

/-- Two instructions for each token are enough for the items, with one to spare for each of them. -/
theorem widthAll_add_length_le : ∀ {w : List Token} {ps : List Pattern}, Items w ps →
    (∀ p, .atom p ∈ w → p.width = 1) → widthAll ps + ps.length ≤ 2 * w.length
  | _, _, .nil, _ => Nat.le_refl 0
  | _, _, @Items.atom w ps p h, hw => by
    have ih := widthAll_add_length_le h fun x hx => hw x (List.mem_append_left _ hx)
    have hp : p.width = 1 := hw p (by simp)
    simp only [widthAll_append, widthAll, List.length_append, List.length_cons, List.length_nil]
    omega
  | _, _, @Items.quantified w ps p q h, hw => by
    have ih := widthAll_add_length_le h fun x hx => hw x (List.mem_append_left _ hx)
    have hq := width_apply_le q p
    simp only [widthAll_append, widthAll, List.length_append, List.length_cons, List.length_nil] at ih ⊢
    omega
  | _, _, @Items.emptyGroup w v ps h h', hw => by
    have ih := widthAll_add_length_le h fun x hx => hw x (List.mem_append_left _ hx)
    simp only [List.length_append, List.length_cons]
    omega
  | _, _, @Items.group w v ps p h h', hw => by
    have ih := widthAll_add_length_le h fun x hx => hw x (List.mem_append_left _ hx)
    have hbody := width_lt_of_body h' (fun x hx => hw x (by simp [hx])) p rfl
    simp only [widthAll_append, widthAll, List.length_append, List.length_cons, List.length_nil]
    omega

/-- Two instructions for each token are enough for an expression and the instruction to accept. -/
private theorem width_lt_of_body : ∀ {w : List Token} {p? : Option Pattern}, Body w p? →
    (∀ p, .atom p ∈ w → p.width = 1) → ∀ p, p? = some p → p.width < 2 * w.length
  | _, _, @Body.empty w h, _ => nofun
  | _, _, @Body.single w ps h hne, hw => by
    rintro _ ⟨⟩
    have ih := widthAll_add_length_le h hw
    have hpos := List.length_pos_of_ne_nil hne
    rw [width]
    omega
  | _, _, @Body.emptyLast w v ps h hne h', hw => by
    rintro _ ⟨⟩
    have ih := widthAll_add_length_le h fun x hx => hw x (List.mem_append_left _ hx)
    have hpos := List.length_pos_of_ne_nil hne
    rw [width, List.length_append]
    omega
  | _, _, @Body.more w v ps p h hne h', hw => by
    rintro _ ⟨⟩
    have ih := widthAll_add_length_le h fun x hx => hw x (List.mem_append_left _ hx)
    have hrest := width_lt_of_body h' (fun x hx => hw x (by simp [hx])) p rfl
    have hpos := List.length_pos_of_ne_nil hne
    -- what the items have to spare and the bar pay for the split and the jump
    rw [width, width, List.length_append, List.length_cons]
    omega

end

end Pattern

private theorem Token.length_le_of_spellsAll {text : List Char} {w : List Token} (h : SpellsAll text w) :
    w.length ≤ text.length := by
  induction h with
  | nil => exact Nat.le_refl 0
  | @cons cs rest t w hspells _ ih =>
    have hpos : 0 < cs.length := by cases hspells <;> simp
    rw [List.length_cons, List.length_append]
    omega

namespace Regex

variable {regex : String} {p : Pattern}

private theorem width_lt_of_parse (h : Pattern.parse regex = .ok p) : p.width < 2 * regex.length := by
  obtain ⟨w, hw, hbody⟩ := Pattern.parse_eq_ok_iff.1 h
  have hatom : ∀ q, .atom q ∈ w → q.width = 1 := by
    intro q hq
    cases Token.isAtom_of_mem hw hq <;> rfl
  have hlength := Token.length_le_of_spellsAll (Token.spellsAll_iff.2 hw)
  have hwidth := Pattern.width_lt_of_body hbody hatom p rfl
  rw [String.length_toList] at hlength
  omega

/-- A program is at most twice as long as its regular expression, so there is one whenever the limit is at least that
much, and code generation never comes to such a limit. -/
theorem size_compile_le (regex : String) :
    (∀ p, Pattern.parse regex = .ok p →
      (∀ limit program, p.compile limit = .ok program → program.size ≤ 2 * regex.length) ∧
      ∀ limit : Int, 2 * regex.length ≤ limit → ∃ program, p.compile limit = .ok program) ∧
    ∀ limit : Int, 2 * regex.length ≤ limit → compile regex limit ≠ .error (.code .counterOverflow) := by
  refine ⟨fun p h => ⟨fun limit program hcompile => ?_, fun limit hlimit => ?_⟩, fun limit hlimit hfull => ?_⟩
  · have hwidth := width_lt_of_parse h
    have hsize := Pattern.size_of_compile (Pattern.isComplete_of_parse h) hcompile
    omega
  · have hwidth := width_lt_of_parse h
    refine ⟨(p.code 0 ++ [Instr.accept]).toArray, ?_⟩
    rw [Pattern.compile_of_isComplete (Pattern.isComplete_of_parse h), if_pos (by omega)]
  · obtain ⟨capacity, program, hcompile, hlt⟩ := compile_eq_overflow_iff.1 hfull
    obtain ⟨p, hp, -⟩ := compile_eq_ok_iff.1 hcompile
    have hwidth := width_lt_of_parse hp
    have hsize := size_of_compile hp hcompile
    omega

/-! ### Stars -/

/-- A letter with stars behind it. -/
def starredText (stars : Nat) : String :=
  String.ofList ('a' :: List.replicate stars '*')

/-- The item of a letter with stars behind it. -/
def starredItem : (stars : Nat) → Pattern
  | 0 => .char "a"
  | stars + 1 => .star (starredItem stars)

private theorem isWritable_starredItem (stars : Nat) : (starredItem stars).isWritable true := by
  induction stars with
  | zero => exact Pattern.isWritable_char_iff.2 ⟨rfl, 'a', rfl, by decide⟩
  | succ stars ih => simpa [starredItem, Pattern.isWritable] using ih

private theorem written_starredItem (stars : Nat) :
    (starredItem stars).written true = 'a' :: List.replicate stars '*' := by
  induction stars with
  | zero => decide
  | succ stars ih => rw [starredItem, Pattern.written, ih, List.replicate_succ', List.cons_append]

private theorem width_starredItem (stars : Nat) : (starredItem stars).width = 2 * stars + 1 := by
  induction stars with
  | zero => rfl
  | succ stars ih =>
    rw [starredItem, Pattern.width, ih]
    omega

private theorem parse_starredText (stars : Nat) :
    Pattern.parse (starredText stars) = .ok (.seq [starredItem stars]) := by
  have hwritable : (Pattern.seq [starredItem stars]).isWritable false := by
    refine Pattern.isWritable_seq_iff.2 ⟨List.cons_ne_nil _ _, Pattern.areWritable_iff.2 ?_⟩
    exact List.forall_mem_singleton.2 (isWritable_starredItem stars)
  have hparse := Pattern.parse_written hwritable
  have hwritten : (Pattern.seq [starredItem stars]).written false = 'a' :: List.replicate stars '*' := by
    rw [Pattern.written, parenthesised, Pattern.writtenAll, Pattern.writtenAll, written_starredItem]
    simp
  rwa [hwritten] at hparse

/-- A letter with stars behind it has a program within the limit only if that is twice as long as the text. -/
theorem exists_compile_starredText_iff (stars : Nat) (limit : Int) :
    (∃ program, compile (starredText stars) limit = .ok program) ↔ 2 * (starredText stars).length ≤ limit := by
  have hlength : (starredText stars).length = stars + 1 := by
    rw [starredText, String.length_ofList, List.length_cons, List.length_replicate]
  have hwidth : (Pattern.seq [starredItem stars]).width = 2 * stars + 1 := by
    rw [Pattern.width, Pattern.widthAll, Pattern.widthAll, width_starredItem]
  rw [compile_of_parse (parse_starredText stars), hwidth, hlength]
  constructor
  · rintro ⟨program, h⟩
    by_contra hfull
    rw [if_neg (by omega)] at h
    cases h
  · intro hroom
    exact ⟨_, if_pos (by omega)⟩

/-- Two stars behind a letter make three characters and six instructions. -/
theorem size_compile_twoStars : Pattern.parse "a**" = .ok (.seq [.star (.star (.char "a"))]) ∧
    (∃ program, (Pattern.seq [.star (.star (.char "a"))]).compile 6 = .ok program ∧
      program.size ≤ 2 * "a**".length ∧ program.size = 6) ∧
    (2 * "a**".length : Int) ≤ 6 ∧ compile "a**" 6 ≠ .error (.code .counterOverflow) ∧
    ¬∃ program, compile "a**" 5 = .ok program := by
  have hparse : Pattern.parse "a**" = .ok (.seq [.star (.star (.char "a"))]) := parse_starredText 2
  have hlimit : (2 * "a**".length : Int) ≤ 6 := by decide
  obtain ⟨hsize, hroom⟩ := (size_compile_le "a**").1 _ hparse
  obtain ⟨program, hprogram⟩ := hroom 6 hlimit
  have hwidth := Pattern.size_of_compile (Pattern.isComplete_of_parse hparse) hprogram
  refine ⟨hparse, ⟨program, hprogram, hsize 6 program hprogram, hwidth⟩, hlimit, ?_, ?_⟩
  · exact (size_compile_le "a**").2 6 hlimit
  · intro h
    have hfull := (exists_compile_starredText_iff 2 5).1 h
    exact absurd hfull (by decide)

end Regex

end PatternMachine
