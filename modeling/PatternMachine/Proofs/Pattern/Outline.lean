import Mathlib.Data.List.Basic
import PatternMachine.Pattern.Outline
import PatternMachine.Proofs.Text.Lines
import PatternMachine.Proofs.Text.Quoted

/-!
# Reading outlines

An outline determines its pattern (`Pattern.outline_eq_iff`), although a line does not say how many of the lines below
belong to it.  The walk gives the nodes in preorder with their depths (`Pattern.levels_eq`), and the lines tell the
depths and the labels, since no label begins with a space or has a newline in it.  A sequence ends where a line comes
that is not further in; so the lines of a pattern can be told from whatever lines stand behind that are not further in
(`Pattern.Decodes`), and the induction is on the sub-expressions.

The walk keeps sub-expressions of many nodes on its agenda, at many depths.  Its outline is nevertheless the one that
comes of going down into each sub-expression in turn (`Pattern.outline_eq_intercalate_lines`).
-/

namespace PatternMachine

/-! ### The walk -/

namespace Pattern

mutual

/-- The nodes of a pattern in preorder, each with its depth, the root being at `depth`. -/
def levelsFrom (depth : Nat) : Pattern → List (Nat × Node)
  | plus body => (depth, .plus) :: body.levelsFrom (depth + 1)
  | star body => (depth, .star) :: body.levelsFrom (depth + 1)
  | opt body => (depth, .opt) :: body.levelsFrom (depth + 1)
  | alt first second => (depth, .alt) :: (first.levelsFrom (depth + 1) ++ second.levelsFrom (depth + 1))
  | seq items => (depth, .seq items.length) :: levelsFromAll (depth + 1) items
  | char text => [(depth, .char text)]
  | any => [(depth, .any)]
  | lineStart => [(depth, .lineStart)]
  | lineEnd => [(depth, .lineEnd)]
  | hole => [(depth, .hole)]

/-- The nodes of patterns one after the other, the roots being at `depth`. -/
def levelsFromAll (depth : Nat) : List Pattern → List (Nat × Node)
  | [] => []
  | p :: ps => p.levelsFrom depth ++ levelsFromAll depth ps

end

private theorem levelsFrom_eq (p : Pattern) (depth : Nat) :
    p.levelsFrom depth = (depth, p.node) :: levelsFromAll (depth + 1) p.children := by
  cases p <;> simp [levelsFrom, levelsFromAll, node, children]

private theorem levelsFromAll_eq (ps : List Pattern) (depth : Nat) :
    levelsFromAll depth ps = (ps.map (depth, ·)).flatMap fun x => x.2.levelsFrom x.1 := by
  induction ps with
  | nil => rfl
  | cons p ps ih => rw [levelsFromAll, ih, List.map_cons, List.flatMap_cons]

/-- The walk goes through the patterns of its agenda one after the other. -/
private theorem walk_eq (agenda : List (Nat × Pattern)) (done : List (Nat × Node)) :
    walk agenda done = done.reverse ++ agenda.flatMap fun x => x.2.levelsFrom x.1 := by
  fun_induction walk agenda done with
  | case1 done => rw [List.flatMap_nil, List.append_nil]
  | case2 depth p rest done ih =>
    rw [ih, List.reverse_cons, List.append_assoc, List.flatMap_append, ← levelsFromAll_eq, List.flatMap_cons,
      levelsFrom_eq p depth, List.singleton_append, List.cons_append]

theorem levels_eq (p : Pattern) : p.levels = p.levelsFrom 0 := by
  rw [levels, walk_eq, List.reverse_nil, List.nil_append, List.flatMap_cons, List.flatMap_nil, List.append_nil]

/-! ### Lines by recursion -/

/-- The lines for a pattern whose root is at `depth`: its label, two columns further in for each level, and then the
lines for its sub-expressions from left to right. -/
def lines (depth : Nat) (p : Pattern) : List String :=
  (String.ofList (List.replicate (2 * depth) ' ') ++ p.node.label) ::
    p.children.attach.flatMap fun c => c.1.lines (depth + 1)
termination_by p.size
decreasing_by
  have hle := size_le_of_mem c.2
  rw [size_eq p]
  omega

private theorem lines_eq (depth : Nat) (p : Pattern) :
    p.lines depth = outlineLine depth p.node :: p.children.flatMap (lines (depth + 1)) := by
  rw [lines, outlineLine, List.flatMap_subtype (g := lines (depth + 1)) fun _ _ => rfl, List.unattach_attach]

/-- The nodes and their depths tell the lines. -/
private theorem map_levelsFrom (p : Pattern) (depth : Nat) :
    ((p.levelsFrom depth).map fun (depth, node) => outlineLine depth node) = p.lines depth := by
  induction p using induction_children generalizing depth with
  | h p ih =>
    rw [levelsFrom_eq, levelsFromAll_eq, lines_eq, List.map_cons, List.flatMap_map, List.map_flatMap]
    congr 1
    apply List.flatMap_congr
    intro c hc
    exact ih c hc (depth + 1)

/-- The outline of a pattern consists of the lines by recursion, the root being at depth 0. -/
theorem outline_eq_intercalate_lines (p : Pattern) : p.outline = "\n".intercalate (p.lines 0) := by
  rw [outline, levels_eq, map_levelsFrom]

end Pattern

/-! ### Labels -/

namespace Node

/-- The node, but for the number of its sub-expressions if that is not always the same. -/
def kind : Node → Node
  | seq _ => seq 0
  | n => n

variable {n m : Node}

private theorem toList_label_char (text : String) :
    (char text).label.toList = 'C' :: 'h' :: 'a' :: 'r' :: ' ' :: (Text.quoted text).toList := by
  rw [label, String.toList_append]
  rfl

private theorem label_char_ne (text : String) (h : ∀ text', m ≠ char text') : (char text).label ≠ m.label := by
  intro heq
  have hlist := congrArg String.toList heq
  rw [toList_label_char] at hlist
  cases m with
  | char text' => exact h text' rfl
  | _ => simp [label] at hlist

private theorem kind_eq_of_label (h : n.label = m.label) : n.kind = m.kind := by
  cases n with
  | char text =>
    cases m with
    | char text' =>
      have hlist := congrArg String.toList h
      simp only [toList_label_char, List.cons.injEq, true_and] at hlist
      rw [Text.quoted_inj (String.toList_inj.1 hlist)]
    | _ => exact absurd h (label_char_ne text nofun)
  | _ =>
    cases m with
    | char text' => exact absurd h.symm (label_char_ne text' nofun)
    | _ =>
      revert h
      simp [label, kind]

private theorem newline_not_mem_label (n : Node) : '\n' ∉ n.label.toList := by
  cases n with
  | char text =>
    rw [toList_label_char]
    simp [Text.newline_not_mem_quoted]
  | _ => simp [label]

private theorem head?_label_ne (n : Node) : n.label.toList.head? ≠ some ' ' := by
  cases n with
  | char text =>
    rw [toList_label_char]
    simp
  | _ => simp [label]

end Node

/-! ### Lines -/

private theorem replicate_append_inj {a b : Nat} {c : Char} {l l' : List Char} (hl : l.head? ≠ some c)
    (hl' : l'.head? ≠ some c) (h : List.replicate a c ++ l = List.replicate b c ++ l') : a = b ∧ l = l' := by
  have hother : ∀ {l : List Char}, l.head? ≠ some c → ∀ x ∈ l.head?, (x == c) = false := by
    intro l hl x hx
    rw [beq_eq_false_iff_ne]
    rintro rfl
    exact hl hx
  have hsame : ∀ n, ∀ x ∈ List.replicate n c, x == c := fun n x hx => beq_iff_eq.2 (List.mem_replicate.1 hx).2
  obtain ⟨hreplicate, hrest⟩ := Text.append_inj_of_head (P := (· == c)) (hsame a) (hsame b) (hother hl) (hother hl') h
  exact ⟨by simpa using congrArg List.length hreplicate, hrest⟩

private theorem newline_not_mem_outlineLine (depth : Nat) (n : Node) : '\n' ∉ (outlineLine depth n).toList := by
  rw [outlineLine, String.toList_append, String.toList_ofList, List.mem_append, List.mem_replicate]
  rintro (⟨-, h⟩ | h)
  · exact absurd h (by decide)
  · exact n.newline_not_mem_label h

private theorem outlineLine_inj {depth depth' : Nat} {n m : Node} (h : outlineLine depth n = outlineLine depth' m) :
    depth = depth' ∧ n.kind = m.kind := by
  have hlist := congrArg String.toList h
  simp only [outlineLine, String.toList_append, String.toList_ofList] at hlist
  obtain ⟨hdepth, hlabel⟩ := replicate_append_inj n.head?_label_ne m.head?_label_ne hlist
  exact ⟨by omega, Node.kind_eq_of_label (String.toList_inj.1 hlabel)⟩

/-- Lines without newlines are told apart by the newlines between them. -/
private theorem eq_of_intercalate_newline {lines lines' : List String} (hlines : ∀ line ∈ lines, '\n' ∉ line.toList)
    (hlines' : ∀ line ∈ lines', '\n' ∉ line.toList) (hne : lines ≠ []) (hne' : lines' ≠ [])
    (h : "\n".intercalate lines = "\n".intercalate lines') : lines = lines' := by
  have hsplit : ∀ {ls : List String}, (∀ line ∈ ls, '\n' ∉ line.toList) → ls ≠ [] →
      ("\n".intercalate ls).toList.splitOn '\n' = ls.map String.toList := by
    intro ls hls hne
    rw [String.toList_intercalate]
    exact List.splitOn_intercalate '\n' (by simpa using hls) (by simpa using hne)
  have hmap := hsplit hlines hne
  rw [h, hsplit hlines' hne'] at hmap
  exact (List.map_inj_right fun _ _ => String.toList_inj.1).1 hmap.symm

namespace Pattern

/-! ### The lines of a pattern -/

/-- What the lines of an outline tell of the nodes. -/
def shown (levels : List (Nat × Node)) : List (Nat × Node) :=
  levels.map fun x => (x.1, x.2.kind)

private theorem shown_eq_of_lines {levels levels' : List (Nat × Node)}
    (h : levels.map (fun x => outlineLine x.1 x.2) = levels'.map fun x => outlineLine x.1 x.2) :
    shown levels = shown levels' := by
  induction levels generalizing levels' with
  | nil =>
    cases levels' with
    | nil => rfl
    | cons x levels' => cases h
  | cons x levels ih =>
    cases levels' with
    | nil => cases h
    | cons x' levels' =>
      rw [List.map_cons, List.map_cons, List.cons.injEq] at h
      obtain ⟨hdepth, hkind⟩ := outlineLine_inj h.1
      rw [shown, shown, List.map_cons, List.map_cons, hdepth, hkind]
      exact congrArg _ (ih h.2)

/-- The first of the nodes, if there is one, is at less than the depth. -/
def EndsAt (depth : Nat) (levels : List (Nat × Node)) : Prop :=
  ∀ x ∈ levels.head?, x.1 < depth

/-- The lines of a pattern tell the pattern and where it ends, whatever comes behind it that is not further in. -/
def Decodes (p : Pattern) : Prop :=
  ∀ (q : Pattern) (depth : Nat) (rest rest' : List (Nat × Node)), EndsAt (depth + 1) rest → EndsAt (depth + 1) rest' →
    shown (p.levelsFrom depth) ++ rest = shown (q.levelsFrom depth) ++ rest' → p = q ∧ rest = rest'

private theorem eq_of_node_children {p q : Pattern} (hnode : p.node.kind = q.node.kind)
    (hchildren : p.children = q.children) : p = q := by
  cases p <;> cases q <;> simp_all [node, Node.kind, children]

variable {depth : Nat} {ps qs : List Pattern} {rest rest' : List (Nat × Node)}

private theorem endsAt_shown_append (h : EndsAt depth rest) (ps : List Pattern) :
    EndsAt (depth + 1) (shown (levelsFromAll depth ps) ++ rest) := by
  intro x hx
  cases ps with
  | nil => exact Nat.lt_succ_of_lt (h x hx)
  | cons p ps =>
    rw [levelsFromAll, levelsFrom_eq] at hx
    cases hx
    exact Nat.lt_succ_self depth

private theorem decodesAll (hps : ∀ p ∈ ps, p.Decodes) (hrest : EndsAt depth rest) (hrest' : EndsAt depth rest')
    (h : shown (levelsFromAll depth ps) ++ rest = shown (levelsFromAll depth qs) ++ rest') :
    ps = qs ∧ rest = rest' := by
  induction ps generalizing qs with
  | nil =>
    cases qs with
    | nil => exact ⟨rfl, h⟩
    | cons q qs =>
      rw [levelsFromAll, levelsFromAll, levelsFrom_eq] at h
      have hlt := hrest (depth, q.node.kind) (by rw [show rest = _ from h]; rfl)
      exact absurd hlt (Nat.lt_irrefl depth)
  | cons p ps ih =>
    obtain ⟨hp, hps⟩ := List.forall_mem_cons.1 hps
    cases qs with
    | nil =>
      rw [levelsFromAll, levelsFromAll, levelsFrom_eq] at h
      have hlt := hrest' (depth, p.node.kind) (by rw [show rest' = _ from h.symm]; rfl)
      exact absurd hlt (Nat.lt_irrefl depth)
    | cons q qs =>
      have hsplit : ∀ (p : Pattern) (ps : List Pattern), shown (levelsFromAll depth (p :: ps)) =
          shown (p.levelsFrom depth) ++ shown (levelsFromAll depth ps) := fun p ps => List.map_append
      rw [hsplit, hsplit, List.append_assoc, List.append_assoc] at h
      obtain ⟨rfl, htail⟩ := hp q depth _ _ (endsAt_shown_append hrest ps) (endsAt_shown_append hrest' qs) h
      obtain ⟨rfl, hends⟩ := ih hps htail
      exact ⟨rfl, hends⟩

private theorem decodes (p : Pattern) : p.Decodes := by
  induction p using induction_children with
  | h p ih =>
    intro q depth rest rest' hrest hrest' h
    rw [levelsFrom_eq p, levelsFrom_eq q] at h
    have hcons : ((depth, p.node.kind) :: (shown (levelsFromAll (depth + 1) p.children) ++ rest)) =
        (depth, q.node.kind) :: (shown (levelsFromAll (depth + 1) q.children) ++ rest') := h
    rw [List.cons.injEq, Prod.mk.injEq] at hcons
    obtain ⟨⟨-, hkind⟩, hbelow⟩ := hcons
    obtain ⟨hchildren, hends⟩ := decodesAll ih hrest hrest' hbelow
    exact ⟨eq_of_node_children hkind hchildren, hends⟩

/-- Patterns with the same outline are the same. -/
theorem outline_eq_iff (p q : Pattern) : p.outline = q.outline ↔ p = q := by
  constructor
  · intro h
    have hne : ∀ r : Pattern, r.levels.map (fun x => outlineLine x.1 x.2) ≠ [] := by
      simp [levels_eq, levelsFrom_eq]
    have hplain : ∀ r : Pattern, ∀ line ∈ r.levels.map (fun x => outlineLine x.1 x.2), '\n' ∉ line.toList := by
      intro r line hline
      obtain ⟨x, -, rfl⟩ := List.mem_map.1 hline
      exact newline_not_mem_outlineLine x.1 x.2
    have hlines := eq_of_intercalate_newline (hplain p) (hplain q) (hne p) (hne q) h
    have hshown := shown_eq_of_lines hlines
    rw [levels_eq, levels_eq] at hshown
    have hend : EndsAt 1 [] := nofun
    exact (decodes p q 0 [] [] hend hend (congrArg (· ++ []) hshown)).1
  · intro h
    rw [h]

/-- Only the last line tells whether the second dot belongs to the inner sequence. -/
example : (seq [seq [any], any]).outline = "Seq\n  Seq\n    Dot\n  Dot" ∧
    (seq [seq [any, any]]).outline = "Seq\n  Seq\n    Dot\n    Dot" := by
  decide +kernel

end Pattern

end PatternMachine
