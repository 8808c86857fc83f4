import PatternMachine.Proofs.Code.Meaning
import PatternMachine.Proofs.Regex.Outcome

/-!
# The start of the line

The line-start instruction looks at its address and at the position at which the match has begun, not at what has been
read since.  On a way to a point that accepts it stands at the beginning of the program, so nothing has been read before
it unless a split has led back there, and of all patterns only one that is repeated as a whole, under a plus, has such a
split (`Pattern.restarts_of_mem_code`).  All others ask for the start of the line at the start of the line only
(`Regex.exists_way_of_accepts`), but a repeated anchor holds wherever a round ends
(`Regex.accepts_repeatedAnchor`).
-/

namespace PatternMachine

/-! ### Patterns that go back to their beginning -/

namespace Pattern

mutual

/-- What the pattern begins with stands under a plus, which goes back to the beginning. -/
def restarts : Pattern → Bool
  | plus _ => true
  | seq items => restartsAll items
  | char _ | any | lineStart | lineEnd | star _ | opt _ | alt _ _ | hole => false

/-- What the patterns begin with stands under a plus. -/
def restartsAll : List Pattern → Bool
  | [] => false
  | p :: ps => p.restarts || (p.width == 0 && restartsAll ps)

end

mutual

/-- No split of a pattern leads to an address before its code, and only a plus at its beginning leads back there. -/
theorem restarts_of_mem_code : ∀ (p : Pattern) {base : Nat} {first second : Int},
    .split first second ∈ p.code base → base ≤ first ∧ (first = base → p.restarts = true)
  | char _, _, _, _, h | any, _, _, _, h | lineStart, _, _, _, h | lineEnd, _, _, _, h | hole, _, _, _, h => by
    simp [code] at h
  | plus body, base, first, second, h => by
    refine ⟨?_, fun _ => rfl⟩
    rw [code, List.mem_append, List.mem_singleton] at h
    rcases h with h | h
    · exact (restarts_of_mem_code body h).1
    · cases h
      exact Int.le_refl _
  | star body, base, first, second, h => by
    rw [code, List.mem_cons, List.mem_append, List.mem_singleton] at h
    rcases h with h | h | h
    · cases h
      omega
    · have hbody := (restarts_of_mem_code body h).1
      omega
    · cases h
  | opt body, base, first, second, h => by
    rw [code, List.mem_cons] at h
    rcases h with h | h
    · cases h
      omega
    · have hbody := (restarts_of_mem_code body h).1
      omega
  | alt p q, base, first, second, h => by
    rw [code, List.mem_cons, List.mem_append, List.mem_cons] at h
    rcases h with h | h | h | h
    · cases h
      omega
    · have hfirst := (restarts_of_mem_code p h).1
      omega
    · cases h
    · have hsecond := (restarts_of_mem_code q h).1
      omega
  | seq items, _, _, _, h => restartsAll_of_mem_code items h

private theorem restartsAll_of_mem_code : ∀ (ps : List Pattern) {base : Nat} {first second : Int},
    .split first second ∈ codeAll base ps → base ≤ first ∧ (first = base → restartsAll ps = true)
  | [], _, _, _, h => by simp [codeAll] at h
  | p :: ps, base, first, second, h => by
    rw [codeAll, List.mem_append] at h
    simp only [restartsAll, Bool.or_eq_true, Bool.and_eq_true, beq_iff_eq]
    rcases h with h | h
    · obtain ⟨hle, hfirst⟩ := restarts_of_mem_code p h
      exact ⟨hle, fun heq => .inl (hfirst heq)⟩
    · obtain ⟨hle, hfirst⟩ := restartsAll_of_mem_code ps h
      refine ⟨by omega, fun heq => .inr ?_⟩
      have hwidth : p.width = 0 := by omega
      exact ⟨hwidth, hfirst (by omega)⟩

end

end Pattern

namespace Machine

variable {m : Machine} {limit : Int} {p q : Point} {path : List Point}

/-! ### Ways to a point that accepts -/

/-- The points of a way that ends where the program accepts. -/
inductive Way (m : Machine) (limit : Int) : List Point → Prop where
  | accept {p : Point} : m.move p = .accept → Way m limit [p]
  | step {p q : Point} {path : List Point} : m.Leads limit p q → Way m limit (q :: path) → Way m limit (p :: q :: path)

private theorem exists_way (h : m.Wins limit p) : ∃ path, m.Way limit (p :: path) := by
  obtain ⟨n, hn⟩ := h
  induction hn with
  | accept ha => exact ⟨[], .accept ha⟩
  | step hl _ ih =>
    obtain ⟨path, hpath⟩ := ih
    exact ⟨_, .step hl hpath⟩

/-- Every point of a way is reached from the first one, and accepts or leads on. -/
private theorem Way.of_mem (h : m.Way limit (p :: path)) (hq : q ∈ p :: path) :
    m.Reaches limit p q ∧ (m.move q = .accept ∨ ∃ r, m.Leads limit q r) := by
  generalize hw : p :: path = w at h hq
  induction h generalizing p path with
  | accept ha =>
    cases hw
    rw [List.mem_singleton] at hq
    subst hq
    exact ⟨.refl _, .inl ha⟩
  | step hl _ ih =>
    cases hw
    rcases List.mem_cons.1 hq with rfl | hq
    · exact ⟨.refl _, .inr ⟨_, hl⟩⟩
    · obtain ⟨hreaches, hmove⟩ := ih rfl hq
      exact ⟨.head hl hreaches, hmove⟩

/-- A way that begins where the program does not accept goes on at a successor. -/
private theorem Way.exists_next (h : m.Way limit (p :: path)) (hp : m.move p ≠ .accept) :
    ∃ q rest, path = q :: rest ∧ q ∈ (m.move p).targets p ∧ m.Way limit (q :: rest) := by
  cases h with
  | accept ha => exact absurd ha hp
  | step hl hrest => exact ⟨_, _, rfl, hl.2, hrest⟩

/-- At no point of a way does the machine fail or raise an error. -/
private theorem move_ne_of_goes (h : m.move p = .accept ∨ ∃ r, m.Leads limit p r) :
    m.move p ≠ .fail ∧ ∀ e, m.move p ≠ .error e := by
  refine ⟨fun hmove => ?_, fun e hmove => ?_⟩
  all_goals
    rcases h with h | ⟨r, -, hr⟩
    · rw [hmove] at h
      cases h
    · rw [hmove] at hr
      cases hr

/-- On a way the line-start instruction stands at the beginning of the program, and the match has begun at the start of
the line. -/
private theorem eq_zero_of_lineStart {a sp : Nat} (hi : m.program[a]? = some .lineStart)
    (h : m.move ⟨a, sp⟩ = .accept ∨ ∃ r, m.Leads limit ⟨a, sp⟩ r) : a = 0 ∧ m.start = 0 := by
  obtain ⟨hfail, herror⟩ := move_ne_of_goes h
  have hmove : m.move ⟨a, sp⟩ =
      if a ≠ 0 then .error (.misplacedAnchor a) else if m.start ≠ 0 then .fail else .advance := m.move_at hi
  by_cases ha : a = 0
  · refine ⟨ha, ?_⟩
    by_contra hstart
    apply hfail
    rw [hmove, if_neg (not_not.2 ha), if_pos hstart]
  · exact absurd (hmove.trans (if_pos ha)) (herror _)

/-- A run does not come back to a line-start instruction at the beginning of the program if no split leads there. -/
private theorem eq_start_or_lt (hf : m.program.Fits) (hi : m.program[0]? = some .lineStart)
    (hback : ∀ first second, Instr.split first second ∈ m.program → 0 < first) (h : m.Reaches limit ⟨0, 0⟩ q) :
    q = ⟨0, 0⟩ ∨ 0 < q.pc := by
  cases h with
  | refl => exact .inl rfl
  | tail _ hl =>
    right
    obtain ⟨a, i, -, ha, hq⟩ := exists_destination hl
    have hfit := hf a i ha
    cases i with
    | char _ | any | lineStart =>
      simp only [Instr.destinations, List.mem_singleton] at hq
      omega
    | jump target =>
      simp only [Instr.destinations, List.mem_singleton] at hq
      rcases hfit with hforward | ⟨t, ht, -, hsplit, -⟩
      · omega
      · -- a jump back leads to a split
        by_contra hzero
        obtain rfl : t = 0 := by omega
        rw [hi] at hsplit
        cases hsplit
    | split first second =>
      have hfirst := hback first second (Array.mem_of_getElem? ha)
      simp only [Instr.destinations, List.mem_cons, List.not_mem_nil, or_false] at hq
      simp only [Program.FitsAt] at hfit
      omega
    | lineEnd | accept | illegal => cases hq

end Machine

/-! ### Regular expressions -/

namespace Regex

variable {regex : String} {p : Pattern} {capacity : Int} {program : Program}

private theorem pos_of_split (hp : Pattern.parse regex = .ok p) (h : compile regex capacity = .ok program)
    (hr : p.restarts = false) {first second : Int} (hi : Instr.split first second ∈ program) : 0 < first := by
  obtain ⟨p', hp', hcompile⟩ := compile_eq_ok_iff.1 h
  rw [hp] at hp'
  cases hp'
  rw [Pattern.eq_of_compile (Pattern.isComplete_of_parse hp) hcompile] at hi
  have hmem : Instr.split first second ∈ p.code 0 := by simpa using hi
  obtain ⟨hle, hfirst⟩ := p.restarts_of_mem_code hmem
  rw [hr] at hfirst
  have hne : first ≠ (0 : Nat) := fun heq => nomatch hfirst heq
  omega

/-- If a program accepts, then on a way on which every line-start instruction is the first one of the program, in a
match that has begun at the start of the line; and nothing has been read before it, unless the pattern is repeated from
its beginning on. -/
theorem exists_way_of_accepts (regex : String) (p : Pattern) (hp : Pattern.parse regex = .ok p) (capacity : Int)
    (program : Program) (h : compile regex capacity = .ok program) (text : Array Char) (start : Int) (config : Config)
    (hs : config.strategy = .depthFirst)
    (haccepts : Machine.accepts { program, text, start } config = .ok true) :
    ∃ path, Machine.Way { program, text, start } config.limit (⟨0, 0⟩ :: path) ∧
      ∀ a sp : Nat, ⟨a, sp⟩ ∈ (⟨0, 0⟩ :: path : List Point) → program[a]? = some .lineStart →
        a = 0 ∧ start = 0 ∧ (p.restarts = false → start + sp = 0) := by
  let m : Machine := { program, text, start }
  obtain ⟨hf, hsize⟩ := fits_of_compile h
  obtain ⟨answer, hrun⟩ := Machine.run_of_fits (m := m) hf hsize config.limit
  have hanswer := Machine.answers_accepts (m := m) hs ⟨_, answer, hrun⟩ (by rw [haccepts]; exact nofun)
  rw [haccepts] at hanswer
  obtain ⟨q, hq, haccept⟩ := hanswer
  obtain ⟨path, hpath⟩ := Machine.exists_way (Machine.wins_of_reaches hq ⟨0, .accept haccept⟩)
  refine ⟨path, hpath, fun a sp hmem hi => ?_⟩
  obtain ⟨hreaches, hmove⟩ := hpath.of_mem hmem
  obtain ⟨rfl, hstart⟩ := Machine.eq_zero_of_lineStart hi hmove
  refine ⟨rfl, hstart, fun hr => ?_⟩
  rcases Machine.eq_start_or_lt hf hi (fun _ _ => pos_of_split hp h hr) hreaches with hzero | hlt
  · cases hzero
    rw [show start = 0 from hstart]
    rfl
  · exact absurd hlt (Int.lt_irrefl 0)

/-- The repeated letter is no beginning of the pattern. -/
theorem exists_way_anchored : ∃ path, Machine.Way
      { program := #[.lineStart, .char "a", .split 1 3, .char "b", .accept], text := #['a', 'a', 'b'], start := 0 }
      defaultLimit (⟨0, 0⟩ :: path) ∧ ∀ sp : Nat, ⟨0, sp⟩ ∈ (⟨0, 0⟩ :: path : List Point) → (0 : Int) + sp = 0 := by
  have hp : Pattern.parse "^a+b" = .ok (.seq [.lineStart, .plus (.char "a"), .char "b"]) := by rfl
  have hcompile : compile "^a+b" = .ok #[.lineStart, .char "a", .split 1 3, .char "b", .accept] := by decide +kernel
  obtain ⟨path, hpath, hstart⟩ := exists_way_of_accepts "^a+b" _ hp defaultLimit _ hcompile #['a', 'a', 'b'] 0 {} rfl
    (by decide +kernel)
  exact ⟨path, hpath, fun sp hmem => (hstart 0 sp hmem rfl).2.2 rfl⟩

/-- The machine of the regular expression `(^a)+b` over a text with two letters `a` in front of the `b`. -/
def repeatedAnchor : Machine where
  program := #[.lineStart, .char "a", .split 0 3, .char "b", .accept]
  text := #['a', 'a', 'b']

/-- The second round asks for the start of the line behind the first letter, and the program accepts nevertheless. -/
theorem accepts_repeatedAnchor : compile "(^a)+b" = .ok repeatedAnchor.program ∧ repeatedAnchor.accepts = .ok true ∧
    ¬∃ path, repeatedAnchor.Way defaultLimit (⟨0, 0⟩ :: path) ∧ ∀ a sp : Nat, ⟨a, sp⟩ ∈ (⟨0, 0⟩ :: path : List Point) →
      repeatedAnchor.program[a]? = some .lineStart → repeatedAnchor.start + sp = 0 := by
  refine ⟨by decide +kernel, by decide +kernel, ?_⟩
  rintro ⟨path, hpath, hstart⟩
  obtain ⟨q, path, rfl, hq, hpath⟩ := hpath.exists_next (by decide +kernel)
  obtain rfl : q = ⟨1, 0⟩ := List.mem_singleton.1 hq
  obtain ⟨q, path, rfl, hq, hpath⟩ := hpath.exists_next (by decide +kernel)
  obtain rfl : q = ⟨2, 1⟩ := List.mem_singleton.1 hq
  obtain ⟨q, path, rfl, hq, hpath⟩ := hpath.exists_next (by decide +kernel)
  have hbranches : q = ⟨0, 1⟩ ∨ q = ⟨3, 1⟩ := List.mem_pair.1 hq
  rcases hbranches with rfl | rfl
  · -- the second round
    exact absurd (hstart 0 1 (by simp) rfl) (by decide)
  · -- no letter `b` comes after the first letter
    obtain ⟨q, path, -, hq, -⟩ := hpath.exists_next (by decide +kernel)
    exact absurd hq List.not_mem_nil

end Regex

end PatternMachine
