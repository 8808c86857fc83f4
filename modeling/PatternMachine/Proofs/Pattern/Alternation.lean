import PatternMachine.Code.Layout
import PatternMachine.Pattern.Language
import PatternMachine.Proofs.Pattern.Reading

/-!
# Alternations and their branches

An alternation is nested to the right, so its branches can be found again (`Pattern.alternation?_branches`).  Those of
another pattern can be put behind them (`Pattern.orElse`), and the result matches what either of the two matches
(`Pattern.matches_orElse`).  This is what a bar between two regular expressions does, if there is none already at the
end of the first one (`Pattern.parse_bar`).
-/

namespace PatternMachine

namespace Pattern

open Level (joined)

variable {p q : Pattern} {qs : List Pattern}

/-- The branches of an alternation, from left to right; the pattern itself, if it is no alternation. -/
def branches : Pattern → List Pattern
  | alt first second => first :: second.branches
  | p => [p]

/-- The alternation of the branches of two patterns. -/
def orElse : Pattern → Pattern → Pattern
  | alt first second, q => alt first (second.orElse q)
  | p, q => alt p q

private theorem branches_of_ne_alt (h : ∀ first second, p = alt first second → False) : p.branches = [p] :=
  branches.eq_2 p h

private theorem orElse_of_ne_alt (h : ∀ first second, p = alt first second → False) (q : Pattern) :
    p.orElse q = alt p q :=
  orElse.eq_2 p q h

private theorem alternation?_cons (h : alternation? qs = some q) (p : Pattern) :
    alternation? (p :: qs) = some (alt p q) := by
  rcases hqs : qs.reverse with _ | ⟨last, before⟩
  · rw [alternation?, hqs] at h
    cases h
  · rw [alternation?, hqs] at h
    cases h
    rw [alternation?, List.reverse_cons, hqs]
    exact congrArg some List.foldl_append

/-- An alternation is put together from its branches. -/
theorem alternation?_branches (p : Pattern) : alternation? p.branches = some p := by
  induction p using branches.induct with
  | case1 first second ih => exact alternation?_cons ih first
  | case2 p hp =>
    rw [branches_of_ne_alt hp]
    rfl

theorem branches_orElse (p q : Pattern) : (p.orElse q).branches = p.branches ++ q.branches := by
  induction p using branches.induct with
  | case1 first second ih => rw [orElse, branches, ih, branches, List.cons_append]
  | case2 p hp => rw [orElse_of_ne_alt hp, branches, branches_of_ne_alt hp, List.singleton_append]

private theorem orElse_joined (bs : List Pattern) (p q : Pattern) :
    (joined bs p).orElse q = joined bs (p.orElse q) := by
  induction bs generalizing p with
  | nil => rfl
  | cons b bs ih => exact ih (alt b p)

private theorem matches_alt {text : Array Char} {start : Int} {i : Nat} :
    (alt p q).Matches text start i ↔ p.Matches text start i ∨ q.Matches text start i := by
  simp only [Matches, Accepts, Runs, exists_or]
  exact or_or_or_comm

theorem matches_orElse (p q : Pattern) {text : Array Char} {start : Int} {i : Nat} :
    (p.orElse q).Matches text start i ↔ p.Matches text start i ∨ q.Matches text start i := by
  induction p using branches.induct with
  | case1 first second ih => rw [orElse, matches_alt, matches_alt, ih, or_assoc]
  | case2 p hp => rw [orElse_of_ne_alt hp, matches_alt]

/-- There is one more split, and one more jump. -/
theorem width_orElse (p q : Pattern) : (p.orElse q).width = p.width + q.width + 2 := by
  induction p using branches.induct with
  | case1 first second ih =>
    rw [orElse, width, width, ih]
    omega
  | case2 p hp => rw [orElse_of_ne_alt hp, width]

/-! ### Regular expressions with a bar -/

open Token (SpellsAll)

variable {regex rest : String} {scanner : Scanner}

/-- The finished branches of a text that ends with an item, and the items of the last one. -/
private theorem parse_of_scan (hp : parse regex = .ok p) (hscan : regex.toList.foldlM Scanner.step {} = .ok scanner)
    (hitems : scanner.level.items ≠ []) :
    p = joined scanner.level.branches (.seq scanner.level.items.reverse) ∧
    ∃ w v, SpellsAll regex.toList (w ++ v) ∧ Branches w scanner.level.branches ∧
      Items v scanner.level.items.reverse := by
  rw [parse, hscan] at hp
  obtain ⟨hescaped, houter, hpattern⟩ := Scanner.finish_eq_ok_iff.1 hp
  constructor
  · have hlevel : scanner.level.pattern? = some (joined scanner.level.branches (.seq scanner.level.items.reverse)) :=
      Level.pattern?_of_items hitems
    rw [hpattern] at hlevel
    exact Option.some.inj hlevel
  · obtain ⟨w, hw, hall⟩ := Scanner.feedAll_of_scan rfl hescaped hscan
    have hopens : Opens [] ({} : Scanner).level ({} : Scanner).outer := Level.Reads.empty
    have hfeed := hopens.feedAll hall
    have hreads : Opens w scanner.level scanner.outer := hfeed
    rw [houter] at hreads
    obtain ⟨u, v, rfl, hu, hv⟩ := hreads
    exact ⟨u, v, hw, hu, hv⟩

/-- The branches of the first regular expression are followed by those of the second one. -/
theorem parse_bar (hp : parse regex = .ok p) (hq : parse rest = .ok q)
    (hscan : regex.toList.foldlM Scanner.step {} = .ok scanner) (hitems : scanner.level.items ≠ []) :
    parse (regex ++ "|" ++ rest) = .ok (p.orElse q) := by
  obtain ⟨rfl, w, v, hspells, hw, hv⟩ := parse_of_scan hp hscan hitems
  obtain ⟨x, hx, hbody⟩ := parse_eq_ok_iff.1 hq
  have hbar : SpellsAll ['|'] [.bar] := .cons (.plain (by decide)) .nil
  have htext := (hspells.append hbar).append (Token.spellsAll_iff.2 hx)
  have hbranches : Branches (w ++ (v ++ [.bar])) (.seq scanner.level.items.reverse :: scanner.level.branches) :=
    .cons hw hv (by simpa using hitems)
  have hboth : (joined scanner.level.branches (.seq scanner.level.items.reverse)).orElse q =
      joined (.seq scanner.level.items.reverse :: scanner.level.branches) q := orElse_joined _ _ q
  rw [hboth]
  refine parse_eq_ok_iff.2 ⟨_, Token.spellsAll_iff.1 ?_, hbranches.body hbody⟩
  simpa using htext

end Pattern

end PatternMachine
