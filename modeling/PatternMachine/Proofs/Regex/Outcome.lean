import PatternMachine.Proofs.Code.Termination
import PatternMachine.Proofs.Pattern.Composition
import PatternMachine.Regex

/-!
# How a match can fail

A pattern that has been read is complete, so its program is too long for the limit or fits, and a run of a program that
fits ends, with few errors left.  The line-start instruction can stand behind the beginning of the program only if the
regular expression has a circumflex that is no ordinary character (`Pattern.mem_of_mem_code`).  Together these are all
the ways in which a match can fail (`Regex.matchesStart_intended`).
-/

namespace PatternMachine

/-! ### The line-start instruction -/

namespace Pattern

private theorem not_mem_codeAll {i : Instr} {ps : List Pattern} (h : ∀ p ∈ ps, ∀ base, i ∉ p.code base) (base : Nat) :
    i ∉ codeAll base ps := by
  induction ps generalizing base with
  | nil => exact List.not_mem_nil
  | cons p ps ih =>
    have hp := h p (List.mem_cons_self ..) base
    have hps := ih (fun q hq => h q (List.mem_cons_of_mem _ hq)) (base + p.width)
    simp [codeAll, hp, hps]

private theorem composes_code : Composes fun _ p => ∀ base, Instr.lineStart ∉ p.code base where
  quantified q p h base := by
    cases q <;> simp [Quantifier.apply, code, h]
  seq _ _ h base := not_mem_codeAll h base
  alt _ h h' base := by
    have hitems : ∀ base, Instr.lineStart ∉ codeAll base _ := h
    simp [code, hitems, h']

/-- A line-start instruction comes from a line-start token. -/
theorem mem_of_mem_code {regex : String} {p : Pattern} {w : List Token} {base : Nat} (h : parse regex = .ok p)
    (hw : Token.ofText? regex.toList = some w) (hi : Instr.lineStart ∈ p.code base) : Token.ofChar '^' ∈ w := by
  by_contra hmem
  refine composes_code.parse h (fun w' hw' q hq base => ?_) false base hi
  rw [hw, Option.some.injEq] at hw'
  subst hw'
  cases Token.isAtom_of_mem hw hq with
  | char _ | any | lineEnd => simp [code]
  | lineStart => exact absurd hq hmem

end Pattern

namespace Regex

/-- The machine of a program at the beginning of a text. -/
def machine (program : Program) (text : String) : Machine :=
  { program, text := text.toList.toArray }

variable {regex text : String} {limit capacity : Int} {config : Config} {p : Pattern} {program : Program}

/-! ### The program of a regular expression -/

private theorem mapError_eq_ok_iff {ε ε' α : Type} {x : Except ε α} {f : ε → ε'} {a : α} :
    x.mapError f = .ok a ↔ x = .ok a := by
  cases x with
  | error e => constructor <;> exact nofun
  | ok b => simp [Except.mapError]

theorem compile_eq_ok_iff :
    compile regex limit = .ok program ↔ ∃ p, Pattern.parse regex = .ok p ∧ p.compile limit = .ok program := by
  rw [compile, bind_eq_ok_iff]
  exact exists_congr fun p => and_congr mapError_eq_ok_iff mapError_eq_ok_iff

theorem compile_of_parse (h : Pattern.parse regex = .ok p) (limit : Int) :
    compile regex limit =
      if (p.width + 1 : Int) ≤ limit then .ok (p.code 0 ++ [Instr.accept]).toArray
      else .error (.code .counterOverflow) := by
  have hcompile := Pattern.compile_of_isComplete (Pattern.isComplete_of_parse h) limit
  have hbind : compile regex limit = (p.compile limit).mapError .code := by
    rw [compile, h]
    rfl
  rw [hbind, hcompile]
  split <;> rfl

theorem compile_of_parse_error {e : ParseError} (h : Pattern.parse regex = .error e) (limit : Int) :
    compile regex limit = .error (.parse e) := by
  rw [compile, h]
  rfl

theorem size_of_compile (hp : Pattern.parse regex = .ok p) (h : compile regex capacity = .ok program) :
    program.size = p.width + 1 := by
  obtain ⟨p', hp', hcompile⟩ := compile_eq_ok_iff.1 h
  rw [hp] at hp'
  cases hp'
  exact Pattern.size_of_compile (Pattern.isComplete_of_parse hp) hcompile

theorem fits_of_compile (h : compile regex capacity = .ok program) : program.Fits ∧ 0 < program.size := by
  obtain ⟨p, hp, hcompile⟩ := compile_eq_ok_iff.1 h
  have hc := Pattern.isComplete_of_parse hp
  exact ⟨Pattern.fits_of_compile hc hcompile, Pattern.size_pos_of_compile hc hcompile⟩

theorem compile_eq_overflow_iff : compile regex limit = .error (.code .counterOverflow) ↔
    ∃ capacity program, compile regex capacity = .ok program ∧ limit < program.size := by
  constructor
  · intro h
    cases hp : Pattern.parse regex with
    | error e =>
      rw [compile_of_parse_error hp] at h
      cases h
    | ok p =>
      have hroom := compile_of_parse hp (p.width + 1)
      rw [if_pos (Int.le_refl _)] at hroom
      refine ⟨_, _, hroom, ?_⟩
      rw [size_of_compile hp hroom]
      rw [compile_of_parse hp] at h
      split at h
      · cases h
      · rename_i hfull
        push_cast
        omega
  · rintro ⟨capacity, program, h, hlimit⟩
    obtain ⟨p, hp, -⟩ := compile_eq_ok_iff.1 h
    have hsize := size_of_compile hp h
    rw [compile_of_parse hp, if_neg (by omega)]

/-! ### The outcome of a match -/

theorem matchesStart_of_compile (h : compile regex config.limit = .ok program) :
    matchesStart regex text config = ((machine program text).accepts config).mapError .eval := by
  rw [matchesStart, h]
  rfl

theorem matchesStart_of_error {e : Error} (h : compile regex config.limit = .error e) :
    matchesStart regex text config = .error e := by
  rw [matchesStart, h]
  rfl

/-- The outcomes that a match is meant to have: an answer, or one of the errors, each in its place. -/
inductive Intended (regex text : String) (config : Config) : Except Error Bool → Prop where
  | answer (b : Bool) : Intended regex text config (.ok b)
  | parse {e : ParseError} : Pattern.parse regex = .error e → Intended regex text config (.error (.parse e))
  | tooLong {capacity : Int} {program : Program} :
    compile regex capacity = .ok program → config.limit < program.size →
      Intended regex text config (.error (.code .counterOverflow))
  | stepLimit {steps : Int} :
    config.maxSteps = some steps → Intended regex text config (.error (.eval (.stepLimit steps)))
  | positionOverflow : config.limit < text.length → Intended regex text config (.error (.eval .positionOverflow))
  /-- The address holds a line-start instruction, which is not the first one, and the regular expression has the token
  of a circumflex. -/
  | misplacedAnchor {program : Program} {a : Nat} {w : List Token} :
    compile regex config.limit = .ok program → 0 < a → program[a]? = some .lineStart →
      Token.ofText? regex.toList = some w → Token.ofChar '^' ∈ w →
      Intended regex text config (.error (.eval (.misplacedAnchor a)))

private theorem intended_of_compile_error {e : Error} (h : compile regex config.limit = .error e) :
    Intended regex text config (.error e) := by
  cases hp : Pattern.parse regex with
  | error e' =>
    rw [compile_of_parse_error hp] at h
    cases h
    exact .parse hp
  | ok p =>
    have hoverflow : e = .code .counterOverflow := by
      rw [compile_of_parse hp] at h
      split at h <;> cases h
      rfl
    subst hoverflow
    obtain ⟨capacity, program, hcompile, hlimit⟩ := compile_eq_overflow_iff.1 h
    exact .tooLong hcompile hlimit

private theorem intended_of_faults (h : compile regex config.limit = .ok program) {q : Point} {e : EvalError}
    (hq : (machine program text).InRange q) (he : (machine program text).Faults config.limit q e) :
    Intended regex text config (.error (.eval e)) := by
  obtain ⟨p, hp, hcompile⟩ := compile_eq_ok_iff.1 h
  have hc := Pattern.isComplete_of_parse hp
  cases he with
  | counter hpc =>
    -- the program would be longer than the limit
    have hsize := size_of_compile hp h
    rw [compile_of_parse hp] at h
    split at h
    · have hlt : q.pc < program.size := hq.2
      omega
    · cases h
  | position hle hlt =>
    have hsize : (machine program text).text.size = text.length := text.length_toList
    exact .positionOverflow (by omega)
  | @anchor a ha hne hi =>
    obtain ⟨w, hw, -⟩ := Pattern.parse_eq_ok_iff.1 hp
    have hmem : Instr.lineStart ∈ p.code 0 := by
      have hi' := Array.mem_of_getElem? hi
      rw [show (machine program text).program = program from rfl, Pattern.eq_of_compile hc hcompile] at hi'
      simpa using hi'
    exact .misplacedAnchor h (Nat.pos_of_ne_zero hne) hi hw (Pattern.mem_of_mem_code hp hw hmem)

private theorem intended_matchesStart (regex text : String) (hs : config.strategy = .depthFirst) :
    Intended regex text config (matchesStart regex text config) := by
  cases h : compile regex config.limit with
  | error e =>
    rw [matchesStart_of_error h]
    exact intended_of_compile_error h
  | ok program =>
    obtain ⟨hf, hsize⟩ := fits_of_compile h
    rw [matchesStart_of_compile h]
    cases ha : (machine program text).accepts config with
    | ok b => exact .answer b
    | error e =>
      rcases Machine.faults_of_accepts hf hsize hs ha with ⟨k, hk, rfl⟩ | ⟨q, hq, he⟩
      · exact .stepLimit hk
      · exact intended_of_faults h hq he

/-- A match ends, and fails only in the ways it is meant to; because of the length of the program exactly if that is
greater than the limit. -/
theorem matchesStart_intended (regex text : String) (config : Config) (hs : config.strategy = .depthFirst) :
    (∀ program, compile regex config.limit = .ok program → (machine program text).Halts config.limit) ∧
    Intended regex text config (matchesStart regex text config) ∧
    (matchesStart regex text config = .error (.code .counterOverflow) ↔
      ∃ capacity program, compile regex capacity = .ok program ∧ config.limit < program.size) := by
  have hintended := intended_matchesStart regex text hs
  refine ⟨fun program h => ?_, hintended, fun h => ?_, fun h => ?_⟩
  · obtain ⟨hf, hsize⟩ := fits_of_compile h
    obtain ⟨answer, hrun⟩ := Machine.run_of_fits (m := machine program text) hf hsize config.limit
    exact ⟨_, answer, hrun⟩
  · rw [h] at hintended
    cases hintended with
    | tooLong hcompile hlimit => exact ⟨_, _, hcompile, hlimit⟩
  · exact matchesStart_of_error (compile_eq_overflow_iff.2 h)

/-- The anchor comes up after a character, since the first branch of the alternation has failed. -/
theorem matchesStart_lateAnchor : matchesStart "b|a^" "a" = .error (.eval (.misplacedAnchor 4)) ∧
    ∃ program, compile "b|a^" = .ok program ∧ program[4]? = some .lineStart := by
  have hmatch : matchesStart "b|a^" "a" = .error (.eval (.misplacedAnchor 4)) := by decide +kernel
  obtain ⟨-, hintended, -⟩ := matchesStart_intended "b|a^" "a" {} rfl
  rw [hmatch] at hintended
  refine ⟨hmatch, ?_⟩
  cases hintended with
  | misplacedAnchor hcompile _ hi _ _ => exact ⟨_, hcompile, hi⟩

end Regex

end PatternMachine
