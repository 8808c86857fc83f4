import Mathlib.Order.Bounds.Basic
import PatternMachine.Machine.Scan
import PatternMachine.Proofs.Code.Meaning
import PatternMachine.Proofs.Pattern.Position

/-!
# The leftmost match

A line is scanned by running a program over the rest of the line from every position, one after the other, each time as
if the rest were a text of its own.  The answer of each run is whether the pattern matches the whole line in place
(`Pattern.accepts_drop`), since a program without misplaced anchors comes to an answer without an error
(`Machine.accepts_of_isSafe`).  So the scan finds the first position at which the pattern matches
(`Program.scan_isLeast`).
-/

namespace PatternMachine

/-! ### Answers at a position -/

section Compiled

variable {p : Pattern} {capacity limit : Int} {program : Program}

/-- Over the rest of a line the program answers whether the pattern matches the line there. -/
theorem Pattern.accepts_drop (hc : p.isComplete) (h : p.compile capacity = .ok program)
    (hanchor : ∀ a, program[a]? = some .lineStart → a = 0) (hsize : program.size ≤ limit) {line : List Char}
    (hline : line.length ≤ limit) {k : Nat} (hk : k ≤ line.length) (start : Int) :
    ∃ b, Machine.accepts { program, text := (line.drop k).toArray, start } { limit } = .ok b ∧
      (b = true ↔ p.Matches line.toArray start k) := by
  let m : Machine := { program, text := (line.drop k).toArray, start }
  have htext : (m.text.size : Int) ≤ limit := by
    have : m.text.size = line.length - k := List.length_drop
    omega
  have hs : m.IsSafe limit := ⟨fits_of_compile hc h, hsize, htext, hanchor⟩
  obtain ⟨b, hb, hwins⟩ := Machine.accepts_of_isSafe hs (size_pos_of_compile hc h)
  refine ⟨b, hb, hwins.trans ?_⟩
  rw [wins_iff_matches hc hs (hasAt_of_compile hc h)]
  exact matches_drop p hk start

/-! ### Scans -/

/-- What a scan is to find among the positions of a set: the first one, or that there is none. -/
def Finds (positions : Set Nat) : Option Nat → Prop
  | none => positions = ∅
  | some k => IsLeast positions k

theorem Finds.isSome_iff {positions : Set Nat} {k? : Option Nat} (h : Finds positions k?) :
    k?.isSome ↔ positions.Nonempty := by
  cases k? with
  | none =>
    have hempty : positions = ∅ := h
    simp [hempty]
  | some k => exact iff_of_true rfl ⟨k, h.1⟩

theorem Finds.eq_some_iff {positions : Set Nat} {k? : Option Nat} (h : Finds positions k?) {k : Nat} :
    k? = some k ↔ IsLeast positions k := by
  cases k? with
  | none =>
    have hempty : positions = ∅ := h
    simp [hempty, IsLeast]
  | some j =>
    have hleast : IsLeast positions j := h
    rw [Option.some.injEq]
    exact ⟨fun hjk => hjk ▸ hleast, fun hk => hleast.unique hk⟩

/-- A scan finds the first of the positions from which the runs have the answer yes. -/
private theorem Program.scanFrom_finds {config : Config} {line rest : List Char} {P : Nat → Prop}
    (h : ∀ k < line.length, ∃ b,
      Machine.accepts { program, text := (line.drop k).toArray, start := k } config = .ok b ∧ (b = true ↔ P k))
    (start : Nat) (hrest : line.drop start = rest) :
    ∃ k?, program.scanFrom config start rest = .ok k? ∧ Finds {k | start ≤ k ∧ k < line.length ∧ P k} k? := by
  induction rest generalizing start with
  | nil =>
    refine ⟨none, rfl, Set.eq_empty_of_forall_notMem fun k ⟨hk, hlt, _⟩ => ?_⟩
    have := List.drop_eq_nil_iff.1 hrest
    omega
  | cons c rest ih =>
    have hlt : start < line.length := by
      by_contra hle
      rw [List.drop_eq_nil_of_le (by omega)] at hrest
      cases hrest
    obtain ⟨b, hb, hP⟩ := h start hlt
    rw [hrest] at hb
    cases b with
    | true =>
      refine ⟨some start, by rw [scanFrom, hb], ⟨Nat.le_refl _, hlt, hP.1 rfl⟩, fun k hk => hk.1⟩
    | false =>
      have hnext : line.drop (start + 1) = rest := by
        rw [← List.tail_drop, hrest, List.tail_cons]
      obtain ⟨k?, hk, hfinds⟩ := ih (start + 1) hnext
      refine ⟨k?, by rw [scanFrom, hb]; exact hk, ?_⟩
      -- the first position is none of them
      have hset : {k | start ≤ k ∧ k < line.length ∧ P k} = {k | start + 1 ≤ k ∧ k < line.length ∧ P k} := by
        ext k
        refine and_congr_left fun ⟨_, hk⟩ => ⟨fun hle => ?_, Nat.le_of_succ_le⟩
        refine Nat.lt_of_le_of_ne hle ?_
        rintro rfl
        exact absurd (hP.2 hk) nofun
      rwa [hset]

theorem Program.scan_finds (hc : p.isComplete) (h : p.compile capacity = .ok program)
    (hanchor : ∀ a, program[a]? = some .lineStart → a = 0) (hsize : program.size ≤ limit) {line : String}
    (hline : line.length ≤ limit) :
    ∃ k?, program.scan line { limit } = .ok k? ∧
      Finds {k | k < line.length ∧ p.Matches line.toList.toArray k k} k? := by
  rw [← String.length_toList] at hline ⊢
  have htries : ∀ k < line.toList.length, ∃ b,
      Machine.accepts { program, text := (line.toList.drop k).toArray, start := k } { limit } = .ok b ∧
        (b = true ↔ p.Matches line.toList.toArray k k) := fun k hk =>
    Pattern.accepts_drop hc h hanchor hsize hline (Nat.le_of_lt hk) k
  simpa [scan] using scanFrom_finds htries 0 rfl

/-- A scan of a line finds the first position before its end at which the pattern matches the line, provided that the
start of the line is asked for nowhere but at the beginning of the program and that the counters are not limited to
less than the lengths of the program and of the line. -/
theorem Program.scan_isLeast (p : Pattern) (hc : p.isComplete) (capacity : Int) (program : Program)
    (h : p.compile capacity = .ok program) (hanchor : ∀ a, program[a]? = some .lineStart → a = 0) (line : String)
    (limit : Int) (hsize : program.size ≤ limit) (hline : line.length ≤ limit) :
    (∀ k, program.scan line { limit } = .ok (some k) ↔
      IsLeast {k : Nat | k < line.length ∧ p.Matches line.toList.toArray k k} k) ∧
    (program.scan line { limit } = .ok none ↔ ∀ k < line.length, ¬p.Matches line.toList.toArray k k) := by
  obtain ⟨k?, hscan, hfinds⟩ := scan_finds hc h hanchor hsize hline
  rw [hscan]
  cases k? with
  | none =>
    have hnone : ∀ k < line.length, ¬p.Matches line.toList.toArray k k := fun k hk hm =>
      Set.eq_empty_iff_forall_notMem.1 hfinds k ⟨hk, hm⟩
    exact ⟨fun k => ⟨nofun, fun hk => absurd hk.1.2 (hnone k hk.1.1)⟩, fun _ => hnone, fun _ => rfl⟩
  | some j =>
    refine ⟨fun k => ⟨fun hk => ?_, fun hk => ?_⟩, nofun, fun hnone => ?_⟩
    · cases hk
      exact hfinds
    · rw [hk.unique hfinds]
    · exact absurd hfinds.1.2 (hnone j hfinds.1.1)

end Compiled

/-- The letter `a`, once or more, up to the end of the line. -/
def trailing : Pattern :=
  .seq [.plus (.char "a"), .lineEnd]

/-- The letters at the beginning of the line are not the last ones. -/
theorem Program.scan_trailing : Program.scan #[.char "a", .split 0 2, .lineEnd, .accept] "abaa" = .ok (some 2) ∧
    IsLeast {k : Nat | k < 4 ∧ trailing.Matches "abaa".toList.toArray k k} 2 := by
  have hc : trailing.isComplete := rfl
  have hcompile : trailing.compile = .ok #[.char "a", .split 0 2, .lineEnd, .accept] :=
    Pattern.compile_of_isComplete hc _
  have hanchor : ∀ a : Nat, (#[.char "a", .split 0 2, .lineEnd, .accept] : Program)[a]? = some .lineStart → a = 0 := by
    intro a ha
    have hmem := Array.mem_of_getElem? ha
    simp at hmem
  have hscan : Program.scan #[.char "a", .split 0 2, .lineEnd, .accept] "abaa" = .ok (some 2) := by decide +kernel
  obtain ⟨hiff, -⟩ := scan_isLeast trailing hc defaultLimit _ hcompile hanchor "abaa" defaultLimit (by decide)
    (by decide +kernel)
  exact ⟨hscan, (hiff 2).1 hscan⟩

end PatternMachine
