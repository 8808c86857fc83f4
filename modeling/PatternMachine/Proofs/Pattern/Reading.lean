import PatternMachine.Proofs.Pattern.Tokens

/-!
# What the parser reads

The parser reads the grammar.  In one direction (`feedAll_items`, `feedAll_body`) the induction is on the derivation:
the tokens of a concatenation push its items on the current level, whatever is there already, and the tokens of an
expression end in a level with its pattern.  In the other one (`Opens.feedAll`) every token keeps an invariant of the
open levels: the tokens so far are those of the finished branches and of the current items of each level, with a
parenthesis between two levels (`Level.Reads`, `Opens`).
-/

namespace PatternMachine

/-! ### The pattern of a level -/

namespace Level

variable {level : Level} {items branches : List Pattern}

/-- The alternation of finished branches, latest first, with an expression behind them. -/
def joined (branches : List Pattern) (last : Pattern) : Pattern :=
  branches.foldl (fun folded branch => .alt branch folded) last

private theorem alternation?_reverse_cons (b : Pattern) (branches : List Pattern) :
    Pattern.alternation? (b :: branches).reverse = some (joined branches b) := by
  rw [Pattern.alternation?, List.reverse_reverse]
  rfl

private theorem pattern?_nil (b : Pattern) (branches : List Pattern) :
    ({ items := [], branches := b :: branches } : Level).pattern? = some (joined branches b) :=
  alternation?_reverse_cons b branches

theorem pattern?_of_items (h : items ≠ []) :
    ({ items, branches } : Level).pattern? = some (joined branches (.seq items.reverse)) := by
  cases items with
  | nil => exact absurd rfl h
  | cons p ps => exact alternation?_reverse_cons _ branches

end Level

namespace Scanner

variable {s r : Scanner} {t : Token} {w v : List Token} {ps : List Pattern} {p : Pattern}

private theorem feedAll_append_ok (h : s.feedAll w = .ok r) (v : List Token) : s.feedAll (w ++ v) = r.feedAll v := by
  rw [feedAll, List.foldlM_append, show w.foldlM feed s = .ok r from h]
  rfl

theorem feedAll_cons_ok (h : s.feed t = .ok r) (w : List Token) : s.feedAll (t :: w) = r.feedAll w := by
  rw [feedAll, List.foldlM_cons, h]
  rfl

/-! ### What the grammar derives is read -/

/-- The scanner when items have been read. -/
def pushAll (s : Scanner) (ps : List Pattern) : Scanner :=
  { s with level := { s.level with items := ps.reverse ++ s.level.items } }

/-- A bar ends the branch that holds the items. -/
private theorem feed_bar (hs : s.level.items = []) (hne : ps ≠ []) :
    (s.pushAll ps).feed .bar = .ok { s with level := { items := [], branches := .seq ps :: s.level.branches } } := by
  have hitems : (s.pushAll ps).level.items = ps.reverse := by
    rw [pushAll, hs, List.append_nil]
  have hfull : ¬(s.pushAll ps).level.items.isEmpty := by
    rw [hitems, List.isEmpty_reverse, List.isEmpty_iff]
    exact hne
  rw [feed, if_neg hfull, Level.endBranch, hitems, List.reverse_reverse]
  rfl

/-- A group pushes the pattern of its level, if it has one. -/
private theorem feedAll_group {p? : Option Pattern} (h : s.feedAll w = .ok (s.pushAll ps))
    (h' : ∃ level, Scanner.feedAll { s with level := {}, outer := (s.pushAll ps).level :: s.outer } v =
      .ok { s with level, outer := (s.pushAll ps).level :: s.outer } ∧ level.pattern? = p?) :
    s.feedAll (w ++ .left :: (v ++ [.right])) = .ok (s.pushAll (ps ++ p?.toList)) := by
  obtain ⟨level, hv, hp⟩ := h'
  have hright : Scanner.feed { s with level, outer := (s.pushAll ps).level :: s.outer } .right =
      .ok (s.pushAll (ps ++ p?.toList)) := by
    simp only [feed, hp]
    cases p? <;> simp [pushAll, Level.push]
  rw [feedAll_append_ok h, feedAll_cons_ok rfl]
  exact (feedAll_append_ok hv _).trans (feedAll_cons_ok hright [])

mutual

/-- The tokens of a concatenation push its items. -/
theorem feedAll_items : ∀ {w : List Token} {ps : List Pattern}, Items w ps → ∀ s : Scanner,
    s.feedAll w = .ok (s.pushAll ps)
  | _, _, .nil, s => rfl
  | _, _, @Items.atom w ps p h, s => by
    have hfeed : (s.pushAll ps).feed (.atom p) = .ok (s.pushAll (ps ++ [p])) := by
      simp [feed, pushAll, Level.push]
    have ih := feedAll_items h s
    rw [feedAll_append_ok ih, feedAll_cons_ok hfeed]
    rfl
  | _, _, @Items.quantified w ps p q h, s => by
    have hfeed : (s.pushAll (ps ++ [p])).feed (.quantifier q) = .ok (s.pushAll (ps ++ [q.apply p])) := by
      simp [feed, pushAll]
    have ih := feedAll_items h s
    rw [feedAll_append_ok ih, feedAll_cons_ok hfeed]
    rfl
  | _, _, @Items.emptyGroup w v ps h h', s => by
    have hgroup : s.feedAll (w ++ .left :: (v ++ [.right])) = .ok (s.pushAll (ps ++ (none : Option Pattern).toList)) :=
      feedAll_group (feedAll_items h s) (feedAll_body h' _ rfl)
    rwa [Option.toList_none, List.append_nil] at hgroup
  | _, _, .group h h', s => feedAll_group (feedAll_items h s) (feedAll_body h' _ rfl)

/-- The tokens of an expression end in a level with its pattern, behind the branches that were there before. -/
theorem feedAll_body : ∀ {w : List Token} {p? : Option Pattern}, Body w p? → ∀ s : Scanner, s.level.items = [] →
    ∃ level, s.feedAll w = .ok { s with level } ∧
      level.pattern? = p?.elim s.level.pattern? fun p => some (Level.joined s.level.branches p)
  | _, _, @Body.empty w h, s, hs => ⟨s.level, feedAll_items h s, rfl⟩
  | _, _, @Body.single w ps h hne, s, hs => by
    refine ⟨_, feedAll_items h s, ?_⟩
    rw [hs, List.append_nil, Level.pattern?_of_items (by simpa using hne), List.reverse_reverse]
    rfl
  | _, _, @Body.emptyLast w v ps h hne h', s, hs => by
    have ih := feedAll_items h s
    have ih' := feedAll_items h' { s with level := { items := [], branches := .seq ps :: s.level.branches } }
    refine ⟨{ items := [], branches := .seq ps :: s.level.branches }, ?_, Level.pattern?_nil _ _⟩
    rw [feedAll_append_ok ih, feedAll_cons_ok (feed_bar hs hne), ih']
    rfl
  | _, _, @Body.more w v ps p h hne h', s, hs => by
    have ih := feedAll_items h s
    obtain ⟨level, hv, hp⟩ :=
      feedAll_body h' { s with level := { items := [], branches := .seq ps :: s.level.branches } } rfl
    refine ⟨level, ?_, hp⟩
    rw [feedAll_append_ok ih, feedAll_cons_ok (feed_bar hs hne), hv]

end

end Scanner

/-! ### What is read, the grammar derives -/

/-- The tokens are those of finished branches, latest first, each with a bar behind it. -/
inductive Branches : List Token → List Pattern → Prop where
  | nil : Branches [] []
  | cons {w v : List Token} {bs ps : List Pattern} :
    Branches w bs → Items v ps → ps ≠ [] → Branches (w ++ (v ++ [.bar])) (.seq ps :: bs)

theorem Branches.body {w v : List Token} {bs : List Pattern} {p : Pattern} (h : Branches w bs) (hv : Body v (some p)) :
    Body (w ++ v) (some (Level.joined bs p)) := by
  induction h generalizing v p with
  | nil => exact hv
  | cons _ hu hne ih =>
    rw [List.append_assoc, List.append_assoc]
    exact ih (.more hu hne hv)

/-- The tokens are those of a level: of its finished branches and of the items of the current one. -/
def Level.Reads (w : List Token) (level : Level) : Prop :=
  ∃ u v, w = u ++ v ∧ Branches u level.branches ∧ Items v level.items.reverse

namespace Level.Reads

variable {w x : List Token} {level : Level}

theorem empty : Level.Reads [] {} :=
  ⟨[], [], rfl, .nil, .nil⟩

/-- More tokens in the current branch. -/
private theorem extend {items : List Pattern} (h : level.Reads w)
    (hx : ∀ v, Items v level.items.reverse → Items (v ++ x) items.reverse) :
    ({ level with items } : Level).Reads (w ++ x) := by
  obtain ⟨u, v, rfl, hu, hv⟩ := h
  exact ⟨u, v ++ x, List.append_assoc .., hu, hx v hv⟩

private theorem endBranch (h : level.Reads w) (hne : level.items ≠ []) : level.endBranch.Reads (w ++ [.bar]) := by
  obtain ⟨u, v, rfl, hu, hv⟩ := h
  refine ⟨u ++ (v ++ [.bar]), [], by simp, .cons hu hv ?_, .nil⟩
  rwa [Ne, List.reverse_eq_nil_iff]

/-- The tokens of a level form an expression with its pattern. -/
private theorem body (h : level.Reads w) : Body w level.pattern? := by
  obtain ⟨u, v, rfl, hu, hv⟩ := h
  obtain ⟨items, branches⟩ := level
  by_cases hne : items = []
  · subst hne
    cases hu with
    | nil => exact .empty hv
    | cons hu hw hps =>
      rw [Level.pattern?_nil]
      have := hu.body (.emptyLast hw hps hv)
      simpa using this
  · rw [Level.pattern?_of_items hne]
    exact hu.body (.single hv (by rwa [Ne, List.reverse_eq_nil_iff]))

end Level.Reads

/-- The tokens are those of the open levels, outermost first, with a parenthesis between two of them. -/
def Opens (w : List Token) (level : Level) : (outer : List Level) → Prop
  | [] => level.Reads w
  | around :: outer => ∃ u v, w = u ++ .left :: v ∧ Opens u around outer ∧ level.Reads v

namespace Opens

variable {w x : List Token} {level level' : Level} {outer : List Level}

/-- What is read on the innermost level changes nothing around it. -/
private theorem extend (h : Opens w level outer) (hx : ∀ v, level.Reads v → level'.Reads (v ++ x)) :
    Opens (w ++ x) level' outer := by
  cases outer with
  | nil => exact hx w h
  | cons around outer =>
    obtain ⟨u, v, rfl, hu, hv⟩ := h
    exact ⟨u, v ++ x, by simp, hu, hx v hv⟩

/-- Every token that can be read belongs to one of the open levels. -/
private theorem feed {s r : Scanner} {t : Token} (h : Opens w s.level s.outer) (hr : s.feed t = .ok r) :
    Opens (w ++ [t]) r.level r.outer := by
  cases t with
  | atom p =>
    cases hr
    refine h.extend fun v hv => hv.extend fun u hu => ?_
    rw [List.reverse_cons]
    exact .atom p hu
  | quantifier q =>
    simp only [Scanner.feed] at hr
    split at hr
    · cases hr
    · rename_i p ps hitems
      cases hr
      refine h.extend fun v hv => hv.extend fun u hu => ?_
      rw [hitems, List.reverse_cons] at hu
      rw [List.reverse_cons]
      exact .quantified q hu
  | left =>
    cases hr
    exact ⟨w, [], rfl, h, .empty⟩
  | right =>
    simp only [Scanner.feed] at hr
    split at hr
    · cases hr
    · rename_i around outer houter
      cases hr
      rw [houter] at h
      obtain ⟨u, v, rfl, hu, hv⟩ := h
      have hbody := hv.body
      rw [List.append_assoc, List.cons_append]
      generalize s.level.pattern? = p? at hbody
      cases p? with
      | none =>
        refine hu.extend fun y hy => hy.extend fun z hz => ?_
        exact .emptyGroup hz hbody
      | some p =>
        refine hu.extend fun y hy => hy.extend fun z hz => ?_
        rw [List.reverse_cons]
        exact .group hz hbody
  | bar =>
    simp only [Scanner.feed] at hr
    split at hr
    · cases hr
    · rename_i hitems
      cases hr
      exact h.extend fun v hv => hv.endBranch (by simpa using hitems)

theorem feedAll {s r : Scanner} {v : List Token} (h : Opens w s.level s.outer) (hr : s.feedAll v = .ok r) :
    Opens (w ++ v) r.level r.outer := by
  induction v generalizing w s with
  | nil =>
    cases hr
    rwa [List.append_nil]
  | cons t v ih =>
    obtain ⟨s', hfeed, hrest⟩ := Scanner.feedAll_cons.1 hr
    have := ih (h.feed hfeed) hrest
    rwa [List.append_assoc] at this

end Opens

/-! ### The parser -/

namespace Scanner

variable {s r : Scanner} {p : Pattern} {text : List Char}

/-- The scanner comes to the end of a text on the outermost level exactly if the tokens of the text form an expression,
whose pattern is then that of the level. -/
private theorem scan_iff_body (p? : Option Pattern) :
    (∃ r, text.foldlM step {} = .ok r ∧ r.escaped = false ∧ r.outer = [] ∧ r.level.pattern? = p?) ↔
      ∃ w, Token.ofText? text = some w ∧ Body w p? := by
  constructor
  · rintro ⟨r, hr, hescaped, houter, hp⟩
    obtain ⟨w, hw, hall⟩ := feedAll_of_scan rfl hescaped hr
    have hopens : Opens [] ({} : Scanner).level ({} : Scanner).outer := Level.Reads.empty
    have hfeed := hopens.feedAll hall
    have hreads : Opens w r.level r.outer := hfeed
    rw [houter] at hreads
    exact ⟨w, Token.spellsAll_iff.1 hw, hp ▸ Level.Reads.body hreads⟩
  · rintro ⟨w, hw, hbody⟩
    obtain ⟨level, hall, hp⟩ := feedAll_body hbody {} rfl
    refine ⟨_, scan_of_feedAll (Token.spellsAll_iff.2 hw) rfl hall, rfl, rfl, hp.trans ?_⟩
    cases p? <;> rfl

theorem finish_eq_ok_iff : s.finish = .ok p ↔ s.escaped = false ∧ s.outer = [] ∧ s.level.pattern? = some p := by
  unfold finish
  split
  · simp_all
  · split
    · simp_all
    · split <;> simp_all

private theorem finish_eq_empty_iff :
    s.finish = .error .empty ↔ s.escaped = false ∧ s.outer = [] ∧ s.level.pattern? = none := by
  unfold finish
  split
  · simp_all
  · split
    · simp_all
    · split <;> simp_all

private theorem step_ne_empty (s : Scanner) (c : Char) : s.step c ≠ .error .empty := by
  intro h
  rcases step_cases s c with ⟨-, hstep⟩ | ⟨-, -, hstep⟩ | ⟨-, t, hstep⟩
  all_goals rw [hstep] at h
  · cases h
  · cases h
  · cases hfeed : feed { s with escaped := false } t with
    | ok r =>
      rw [hfeed] at h
      cases h
    | error e =>
      rw [hfeed] at h
      cases h
      rcases feed_eq_error hfeed with he | he
      · cases he
      · cases he

private theorem scan_ne_empty (s : Scanner) (text : List Char) : text.foldlM step s ≠ .error .empty := by
  induction text generalizing s with
  | nil => exact fun h => by cases h
  | cons c text ih =>
    rw [List.foldlM_cons]
    cases h : s.step c with
    | error e =>
      intro he
      cases he
      exact step_ne_empty s c h
    | ok r => exact ih r

end Scanner

namespace Pattern

theorem parse_eq_ok_iff {regex : String} {p : Pattern} :
    parse regex = .ok p ↔ ∃ w, Token.ofText? regex.toList = some w ∧ Body w (some p) := by
  rw [parse, bind_eq_ok_iff, ← Scanner.scan_iff_body]
  exact exists_congr fun r => and_congr_right fun _ => Scanner.finish_eq_ok_iff

private theorem parse_eq_empty_iff {regex : String} :
    parse regex = .error .empty ↔ ∃ w, Token.ofText? regex.toList = some w ∧ Body w none := by
  rw [parse, ← Scanner.scan_iff_body]
  cases h : regex.toList.foldlM Scanner.step {} with
  | error e =>
    constructor
    · intro he
      cases he
      exact absurd h (Scanner.scan_ne_empty _ _)
    · rintro ⟨r, hr, -⟩
      cases hr
  | ok s =>
    refine Scanner.finish_eq_empty_iff.trans ⟨fun hs => ⟨s, rfl, hs⟩, ?_⟩
    rintro ⟨r, hr, hs⟩
    cases hr
    exact hs

/-- The parser accepts the texts whose tokens form an expression that is not empty, with the pattern of the expression,
and finds a text empty if its tokens form an empty expression. -/
theorem parse_iff_body (regex : String) :
    (∀ p, parse regex = .ok p ↔ ∃ w, Token.ofText? regex.toList = some w ∧ Body w (some p)) ∧
    (parse regex = .error .empty ↔ ∃ w, Token.ofText? regex.toList = some w ∧ Body w none) :=
  ⟨fun _ => parse_eq_ok_iff, parse_eq_empty_iff⟩

/-- The quantifier belongs to the item before the empty group, and the empty last branch is dropped. -/
example : parse "a()+|" = .ok (.seq [.plus (.char "a")]) := by rfl

end Pattern

end PatternMachine
