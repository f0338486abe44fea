import BalancedLinks.Proofs.Drawing
import BalancedLinks.Proofs.Growth
import Mathlib.Data.Tree.Basic

/-!
# Reading a drawing back

What a tree draws is a function of its shape and the names in it: the statements of a tree of names. Where the names
are distinct and have none of the characters by which a drawing separates its parts, the text falls back into its
statements in one way, and the statements into the tree: no edge leads to the root, and the edges from a name lead to
the roots of the two subtrees below it. So the text of a drawing determines the shape of the tree, with the names in
their places.

The main statements are `Graphviz.Statements.render_inj`, `Graphviz.eq_of_names_of_edges` and
`World.decodes_run`.
-/

set_option autoImplicit false

namespace BalancedLinks

namespace Graphviz

/-! ## Trees of names -/

/-- The name at the top. -/
def top? : BinaryTree String → Option String
  | .nil => none
  | .node name _ _ => some name

/-- The names from left to right. -/
def names : BinaryTree String → List String
  | .nil => []
  | .node name a b => names a ++ name :: names b

/-- The fill of a node, by the heights of the subtrees below it. -/
def shade (left right : Nat) : String :=
  if left = right then "black" else if right < left then "blue" else "orange"

/-- The names with the fills of their nodes, from left to right. -/
def shaded : BinaryTree String → List (String × String)
  | .nil => []
  | .node name a b => shaded a ++ (name, shade a.height b.height) :: shaded b

/-- The edges, each with its side: those from the names further left first, and the left one first of two. -/
def edges : BinaryTree String → List (String × Side × String)
  | .nil => []
  | .node name a b =>
    edges a ++ ((top? a).toList.map (name, .left, ·) ++ (top? b).toList.map (name, .right, ·)) ++ edges b

/-- The statement for a node of this fill. -/
def filledStatement (name fill : String) : String :=
  name ++ "[fillcolor=" ++ fill ++ "];"

/-- The statements for the nodes and the edges of a tree of names. -/
def statements (t : BinaryTree String) : Statements :=
  ⟨(shaded t).map fun (name, fill) => filledStatement name fill,
    (edges t).map fun (parent, side, child) => edgeStatement parent side child⟩

/-- The exact balance of a link fills its node by the heights of its two subtrees. -/
theorem fillColor_finite (left right : Nat) : fillColor (.finite ((right : Int) - left)) = shade left right := by
  have hlevel : (right : Int) - left = 0 ↔ left = right := by omega
  have hheavy : (0 : Int) < -((right : Int) - left) ↔ right < left := by omega
  have hleft : (Balance.finite ((right : Int) - left)).isLeftHeavy = decide (0 < -((right : Int) - left)) := rfl
  simp only [fillColor, shade, Balance.level, Balance.finite.injEq, hleft, decide_eq_true_eq, hlevel, hheavy]

/-- Filling the nodes of a drawing leaves their names and the order of these. -/
theorem map_fst_shaded (t : BinaryTree String) : (shaded t).map Prod.fst = names t := by
  induction t with
  | nil => rfl
  | node name a b iha ihb => simp only [shaded, names, List.map_append, List.map_cons, iha, ihb]

/-- The names in a tree are that of its top and those in its two subtrees. -/
theorem mem_names_node {name : String} {a b : BinaryTree String} {k : String} :
    k ∈ names (.node name a b) ↔ k ∈ names a ∨ k = name ∨ k ∈ names b := by
  simp only [names, List.mem_append, List.mem_cons]

/--
No name occurs twice in a tree exactly if none does in a subtree, none is in both, and that of the top is in
neither.
-/
theorem nodup_names_node {name : String} {a b : BinaryTree String} :
    (names (.node name a b)).Nodup ↔
      name ∉ names a ∧ name ∉ names b ∧ (names a).Nodup ∧ (names b).Nodup ∧ (names a).Disjoint (names b) := by
  rw [names, List.nodup_middle, List.nodup_cons, List.mem_append, not_or, List.nodup_append', and_assoc]

/-- The edges of a tree are those of its subtrees and the ones from its top to theirs. -/
theorem mem_edges_node {name : String} {a b : BinaryTree String} {p : String} {s : Side} {c : String} :
    (p, s, c) ∈ edges (.node name a b) ↔
      (p, s, c) ∈ edges a ∨ (p = name ∧ (s = .left ∧ top? a = some c ∨ s = .right ∧ top? b = some c)) ∨
        (p, s, c) ∈ edges b := by
  simp only [edges, List.mem_append, List.mem_map, Option.mem_toList, Prod.mk.injEq]
  constructor
  · rintro ((ha | ⟨c, hc, rfl, rfl, rfl⟩ | ⟨c, hc, rfl, rfl, rfl⟩) | hb)
    · exact Or.inl ha
    · exact Or.inr (Or.inl ⟨rfl, Or.inl ⟨rfl, hc⟩⟩)
    · exact Or.inr (Or.inl ⟨rfl, Or.inr ⟨rfl, hc⟩⟩)
    · exact Or.inr (Or.inr hb)
  · rintro (ha | ⟨rfl, ⟨rfl, hc⟩ | ⟨rfl, hc⟩⟩ | hb)
    · exact Or.inl (Or.inl ha)
    · exact Or.inl (Or.inr (Or.inl ⟨c, hc, rfl, rfl, rfl⟩))
    · exact Or.inl (Or.inr (Or.inr ⟨c, hc, rfl, rfl, rfl⟩))
    · exact Or.inr hb

/-- The name on top of a tree is one of its names. -/
theorem top?_mem_names {t : BinaryTree String} {name : String} (h : top? t = some name) : name ∈ names t := by
  cases t with
  | nil => cases h
  | node top a b =>
    obtain rfl := Option.some.inj h
    exact mem_names_node.mpr (Or.inr (Or.inl rfl))

/-- An edge leads from one of the names to another. -/
theorem mem_names_of_mem_edges {t : BinaryTree String} {p : String} {s : Side} {c : String}
    (h : (p, s, c) ∈ edges t) : p ∈ names t ∧ c ∈ names t := by
  induction t with
  | nil => cases h
  | node name a b iha ihb =>
    rw [mem_names_node, mem_names_node]
    rcases mem_edges_node.mp h with ha | ⟨rfl, ⟨-, hc⟩ | ⟨-, hc⟩⟩ | hb
    · exact ⟨Or.inl (iha ha).1, Or.inl (iha ha).2⟩
    · exact ⟨Or.inr (Or.inl rfl), Or.inl (top?_mem_names hc)⟩
    · exact ⟨Or.inr (Or.inl rfl), Or.inr (Or.inr (top?_mem_names hc))⟩
    · exact ⟨Or.inr (Or.inr (ihb hb).1), Or.inr (Or.inr (ihb hb).2)⟩

/-- There are as many edges as there are names below the one at the top. -/
theorem length_edges_add_top (t : BinaryTree String) :
    (edges t).length + (top? t).toList.length = (names t).length := by
  induction t with
  | nil => rfl
  | node name a b iha ihb =>
    have htop : (top? (.node name a b)).toList.length = 1 := rfl
    simp only [edges, names, htop, List.length_append, List.length_map, List.length_cons]
    omega

/-- A tree that is not empty has one edge less than it has names: one to each but that on top. -/
theorem length_edges {t : BinaryTree String} (h : names t ≠ []) : (edges t).length + 1 = (names t).length := by
  cases t with
  | nil => exact absurd rfl h
  | node name a b => exact length_edges_add_top (.node name a b)

/-! ## From the text to the statements -/

/-- What stands before the first of a character is determined, and so is what stands after it. -/
theorem cut_inj {c : Char} {xs ys us vs : List Char} (hx : c ∉ xs) (hy : c ∉ ys)
    (h : xs ++ c :: us = ys ++ c :: vs) : xs = ys ∧ us = vs := by
  induction xs generalizing ys with
  | nil =>
    cases ys with
    | nil => exact ⟨rfl, (List.cons.inj h).2⟩
    | cons y ys => exact absurd (List.cons.inj h).1 (List.ne_of_not_mem_cons hy)
  | cons x xs ih =>
    cases ys with
    | nil => exact absurd (List.cons.inj h).1.symm (List.ne_of_not_mem_cons hx)
    | cons y ys =>
      obtain ⟨rfl, hrest⟩ := List.cons.inj h
      obtain ⟨rfl, hafter⟩ := ih (List.not_mem_of_not_mem_cons hx) (List.not_mem_of_not_mem_cons hy) hrest
      exact ⟨rfl, hafter⟩

/-- Whether a name has none of the characters that end the parts of a drawing. -/
structure IsPlain (name : String) : Prop where
  bracket : '[' ∉ name.toList
  colon : ':' ∉ name.toList
  semicolon : ';' ∉ name.toList
  newline : '\n' ∉ name.toList

instance (name : String) : Decidable (IsPlain name) :=
  decidable_of_iff ('[' ∉ name.toList ∧ ':' ∉ name.toList ∧ ';' ∉ name.toList ∧ '\n' ∉ name.toList)
    ⟨fun ⟨hb, hc, hs, hn⟩ => ⟨hb, hc, hs, hn⟩, fun ⟨hb, hc, hs, hn⟩ => ⟨hb, hc, hs, hn⟩⟩

/-- Whether a text ends at its only semicolon, and is on one line. -/
def IsStatement (text : String) : Prop :=
  ∃ body, text.toList = body ++ [';'] ∧ ';' ∉ body ∧ '\n' ∉ body

/-- A statement is on one line. -/
theorem IsStatement.newline_not_mem {text : String} (h : IsStatement text) : '\n' ∉ text.toList := by
  obtain ⟨body, hbody, -, hnewline⟩ := h
  simp [hbody, hnewline]

/-- Statements one after the other fall apart in one way. -/
theorem join_inj {xs ys : List String} (hx : ∀ s ∈ xs, IsStatement s) (hy : ∀ s ∈ ys, IsStatement s)
    (h : String.join xs = String.join ys) : xs = ys := by
  rw [← String.toList_inj, String.toList_join, String.toList_join] at h
  induction xs generalizing ys with
  | nil =>
    cases ys with
    | nil => rfl
    | cons y ys =>
      obtain ⟨body, hbody, -⟩ := hy y (by simp)
      simp [hbody] at h
  | cons x xs ih =>
    obtain ⟨body, hbody, hfree, -⟩ := hx x (by simp)
    cases ys with
    | nil => simp [hbody] at h
    | cons y ys =>
      obtain ⟨body', hbody', hfree', -⟩ := hy y (by simp)
      simp only [List.flatMap_cons, hbody, hbody', List.append_assoc, List.singleton_append] at h
      obtain ⟨rfl, hrest⟩ := cut_inj hfree hfree' h
      obtain rfl : x = y := String.toList_inj.mp (hbody.trans hbody'.symm)
      rw [ih (fun s hs => hx s (by simp [hs])) (fun s hs => hy s (by simp [hs])) hrest]

/-- Statements one behind the other are on one line. -/
theorem newline_not_mem_join {xs : List String} (h : ∀ s ∈ xs, IsStatement s) :
    '\n' ∉ (String.join xs).toList := by
  rw [String.toList_join, List.mem_flatMap]
  rintro ⟨s, hs, hnewline⟩
  exact (h s hs).newline_not_mem hnewline

/-- Two lines below the same head are determined. -/
theorem lines_inj {head nodes edges nodes' edges' : String} (hnodes : '\n' ∉ nodes.toList)
    (hedges : '\n' ∉ edges.toList) (hnodes' : '\n' ∉ nodes'.toList) (hedges' : '\n' ∉ edges'.toList)
    (h : head ++ nodes ++ "\n" ++ edges ++ "\n\x7d\n" = head ++ nodes' ++ "\n" ++ edges' ++ "\n\x7d\n") :
    nodes = nodes' ∧ edges = edges' := by
  have hnewline : "\n".toList = ['\n'] := rfl
  have hclosing : "\n\x7d\n".toList = '\n' :: ['\x7d', '\n'] := rfl
  rw [← String.toList_inj] at h
  simp only [String.toList_append, hnewline, hclosing, List.append_assoc, List.cons_append, List.nil_append] at h
  obtain ⟨hfirst, hrest⟩ := cut_inj hnodes hnodes' (List.append_cancel_left h)
  obtain ⟨hsecond, -⟩ := cut_inj hedges hedges' hrest
  exact ⟨String.toList_inj.mp hfirst, String.toList_inj.mp hsecond⟩

/-- Graphs with the same text have the same statements. -/
theorem Statements.render_inj {s s' : Statements} (hnodes : ∀ x ∈ s.nodes, IsStatement x)
    (hedges : ∀ x ∈ s.edges, IsStatement x) (hnodes' : ∀ x ∈ s'.nodes, IsStatement x)
    (hedges' : ∀ x ∈ s'.edges, IsStatement x) (h : s.render = s'.render) : s = s' := by
  obtain ⟨hfirst, hsecond⟩ := lines_inj (newline_not_mem_join hnodes) (newline_not_mem_join hedges)
    (newline_not_mem_join hnodes') (newline_not_mem_join hedges') h
  obtain ⟨nodes, edges⟩ := s
  obtain ⟨nodes', edges'⟩ := s'
  obtain rfl := join_inj hnodes hnodes' hfirst
  obtain rfl := join_inj hedges hedges' hsecond
  rfl

/-! ## From the statements to the names -/

/-- Three colours are used to fill nodes. -/
theorem shade_cases (left right : Nat) : shade left right ∈ ["black", "blue", "orange"] := by
  simp only [shade]
  split_ifs <;> simp

/-- Each filled node is a node of the tree, in one of the three colours. -/
theorem mem_of_mem_shaded {t : BinaryTree String} {name fill : String} (h : (name, fill) ∈ shaded t) :
    name ∈ names t ∧ fill ∈ ["black", "blue", "orange"] := by
  induction t with
  | nil => cases h
  | node top a b iha ihb =>
    rw [mem_names_node]
    rcases List.mem_append.mp h with ha | hb
    · exact ⟨Or.inl (iha ha).1, (iha ha).2⟩
    rcases List.mem_cons.mp hb with heq | hb
    · obtain ⟨rfl, rfl⟩ := Prod.mk.inj heq
      exact ⟨Or.inr (Or.inl rfl), shade_cases _ _⟩
    · exact ⟨Or.inr (Or.inr (ihb hb).1), (ihb hb).2⟩

/-- What is written about a filled node is a statement where the name is plain. -/
theorem filledStatement_isStatement {name fill : String} (h : IsPlain name)
    (hfill : fill ∈ ["black", "blue", "orange"]) : IsStatement (filledStatement name fill) := by
  have hsemicolon := h.semicolon
  have hnewline := h.newline
  refine ⟨name.toList ++ ("[fillcolor=" ++ fill ++ "]").toList, by simp [filledStatement], ?_, ?_⟩
  all_goals
    simp only [List.mem_cons, List.not_mem_nil, or_false] at hfill
    rcases hfill with rfl | rfl | rfl <;> simp [*]

/-- From a node statement the plain name and the colour can be read off. -/
theorem filledStatement_inj {name name' fill fill' : String} (h : IsPlain name) (h' : IsPlain name')
    (heq : filledStatement name fill = filledStatement name' fill') : (name, fill) = (name', fill') := by
  have htoList : ∀ name fill : String, (filledStatement name fill).toList =
      name.toList ++ '[' :: ("fillcolor=".toList ++ (fill.toList ++ "];".toList)) := by
    simp [filledStatement]
  rw [← String.toList_inj, htoList, htoList] at heq
  obtain ⟨hname, hrest⟩ := cut_inj h.bracket h'.bracket heq
  have hfill := List.append_cancel_right (List.append_cancel_left hrest)
  rw [String.toList_inj.mp hname, String.toList_inj.mp hfill]

/-- What is written about an edge is a statement where the names are plain. -/
theorem edgeStatement_isStatement {p c : String} (hp : IsPlain p) (hc : IsPlain c) (s : Side) :
    IsStatement (edgeStatement p s c) := by
  have hsemicolon := hp.semicolon
  have hnewline := hp.newline
  have hsemicolon' := hc.semicolon
  have hnewline' := hc.newline
  refine ⟨p.toList ++ (":" ++ corner s ++ "->" ++ c ++ ":n").toList, by simp [edgeStatement], ?_, ?_⟩
  all_goals cases s <;> simp [corner, *]

/-- The two sides leave a node at different corners. -/
theorem corner_injective : Function.Injective corner := by
  intro s s' h
  cases s <;> cases s' <;> first | rfl | exact absurd h (by decide)

/-- From an edge statement the two plain names and the side can be read off. -/
theorem edgeStatement_inj {p p' c c' : String} {s s' : Side} (hp : IsPlain p) (hp' : IsPlain p') (hc : IsPlain c)
    (hc' : IsPlain c') (h : edgeStatement p s c = edgeStatement p' s' c') : (p, s, c) = (p', s', c') := by
  have htoList : ∀ (p : String) (s : Side) (c : String), (edgeStatement p s c).toList =
      p.toList ++ ':' :: ((corner s).toList ++ (['-', '>'] ++ (c.toList ++ ':' :: ['n', ';']))) := by
    simp [edgeStatement]
  rw [← String.toList_inj, htoList, htoList] at h
  obtain ⟨hparent, hrest⟩ := cut_inj hp.colon hp'.colon h
  have hcorner : ∀ s : Side, (corner s).toList.length = 2 := by
    intro s
    cases s <;> simp [corner]
  obtain ⟨hside, hchild⟩ := List.append_inj hrest ((hcorner s).trans (hcorner s').symm)
  obtain ⟨hname, -⟩ := cut_inj hc.colon hc'.colon (List.append_cancel_left hchild)
  obtain rfl : s = s' := corner_injective (String.toList_inj.mp hside)
  rw [String.toList_inj.mp hparent, String.toList_inj.mp hname]

/-- A list is determined by what a function that tells its members apart makes of it. -/
theorem eq_of_map_eq {β γ : Type} {f : β → γ} {xs ys : List β} (hf : ∀ x ∈ xs, ∀ y ∈ ys, f x = f y → x = y)
    (h : xs.map f = ys.map f) : xs = ys := by
  induction xs generalizing ys with
  | nil => exact (List.map_eq_nil_iff.mp h.symm).symm
  | cons x xs ih =>
    cases ys with
    | nil => cases h
    | cons y ys =>
      obtain ⟨hhead, htail⟩ := List.cons.inj h
      obtain rfl := hf x (by simp) y (by simp) hhead
      rw [ih (fun a ha b hb => hf a (by simp [ha]) b (by simp [hb])) htail]

/-- The node statements of a tree of plain names are statements. -/
theorem isStatement_of_mem_nodes {t : BinaryTree String} (h : ∀ name ∈ names t, IsPlain name) :
    ∀ text ∈ (statements t).nodes, IsStatement text := by
  intro text htext
  obtain ⟨⟨name, fill⟩, hnode, rfl⟩ := List.mem_map.mp htext
  obtain ⟨hname, hfill⟩ := mem_of_mem_shaded hnode
  exact filledStatement_isStatement (h name hname) hfill

/-- The edge statements of a tree of plain names are statements. -/
theorem isStatement_of_mem_edges {t : BinaryTree String} (h : ∀ name ∈ names t, IsPlain name) :
    ∀ text ∈ (statements t).edges, IsStatement text := by
  intro text htext
  obtain ⟨⟨p, s, c⟩, hedge, rfl⟩ := List.mem_map.mp htext
  obtain ⟨hp, hc⟩ := mem_names_of_mem_edges hedge
  exact edgeStatement_isStatement (h p hp) (h c hc) s

/-- Trees of plain names with the same statements have the same names in order, and the same edges. -/
theorem names_edges_of_statements {t u : BinaryTree String} (ht : ∀ name ∈ names t, IsPlain name)
    (hu : ∀ name ∈ names u, IsPlain name) (h : statements t = statements u) :
    names t = names u ∧ edges t = edges u := by
  obtain ⟨hnodes, hedges⟩ := Statements.mk.inj h
  constructor
  · rw [← map_fst_shaded, ← map_fst_shaded]
    refine congrArg _ (eq_of_map_eq ?_ hnodes)
    rintro ⟨name, fill⟩ hx ⟨name', fill'⟩ hy heq
    exact filledStatement_inj (ht _ (mem_of_mem_shaded hx).1) (hu _ (mem_of_mem_shaded hy).1) heq
  · refine eq_of_map_eq ?_ hedges
    rintro ⟨p, s, c⟩ hx ⟨p', s', c'⟩ hy heq
    have hin := mem_names_of_mem_edges hx
    have hin' := mem_names_of_mem_edges hy
    exact edgeStatement_inj (ht _ hin.1) (hu _ hin'.1) (ht _ hin.2) (hu _ hin'.2) heq

/-! ## From the names to the tree -/

/-- Whether the edges from each name of a tree lead to the tops of the two subtrees below it, and to nothing else. -/
def Hangs (es : List (String × Side × String)) : BinaryTree String → Prop
  | .nil => True
  | .node name a b =>
    (∀ c, (name, .left, c) ∈ es ↔ top? a = some c) ∧ (∀ c, (name, .right, c) ∈ es ↔ top? b = some c) ∧
      Hangs es a ∧ Hangs es b

/-- How a tree hangs depends on the edges that leave its own names alone. -/
theorem Hangs.congr {es es' : List (String × Side × String)} {t : BinaryTree String} (h : Hangs es t)
    (hsame : ∀ p ∈ names t, ∀ s c, (p, s, c) ∈ es' ↔ (p, s, c) ∈ es) : Hangs es' t := by
  induction t with
  | nil => trivial
  | node name a b iha ihb =>
    obtain ⟨hleft, hright, ha, hb⟩ := h
    simp only [mem_names_node] at hsame
    have hname := hsame name (Or.inr (Or.inl rfl))
    exact ⟨fun c => (hname .left c).trans (hleft c), fun c => (hname .right c).trans (hright c),
      iha ha fun p hp => hsame p (Or.inl hp), ihb hb fun p hp => hsame p (Or.inr (Or.inr hp))⟩

/-- Where its names are distinct, a tree hangs together by its own edges. -/
theorem hangs_edges {t : BinaryTree String} (h : (names t).Nodup) : Hangs (edges t) t := by
  induction t with
  | nil => trivial
  | node name a b iha ihb =>
    -- no name is on two sides, so the edges from a name are those of its own side
    obtain ⟨hna, hnb, ha, hb, hab⟩ := nodup_names_node.mp h
    have hfrom : ∀ {p s c}, (p, s, c) ∈ edges a → p ∈ names a := fun he => (mem_names_of_mem_edges he).1
    have hfrom' : ∀ {p s c}, (p, s, c) ∈ edges b → p ∈ names b := fun he => (mem_names_of_mem_edges he).1
    have hroot : ∀ s c, (name, s, c) ∈ edges (.node name a b) ↔
        s = .left ∧ top? a = some c ∨ s = .right ∧ top? b = some c := by
      intro s c
      rw [mem_edges_node]
      constructor
      · rintro (he | ⟨-, he⟩ | he)
        exacts [absurd (hfrom he) hna, he, absurd (hfrom' he) hnb]
      · exact fun he => Or.inr (Or.inl ⟨rfl, he⟩)
    refine ⟨fun c => by simp [hroot], fun c => by simp [hroot], (iha ha).congr ?left, (ihb hb).congr ?right⟩
    case left =>
      intro p hp s c
      rw [mem_edges_node]
      constructor
      · rintro (he | ⟨rfl, -⟩ | he)
        exacts [he, absurd hp hna, absurd (hfrom' he) (hab hp)]
      · exact Or.inl
    case right =>
      intro p hp s c
      rw [mem_edges_node]
      constructor
      · rintro (he | ⟨rfl, -⟩ | he)
        exacts [absurd hp (hab (hfrom he)), absurd hp hnb, he]
      · exact fun he => Or.inr (Or.inr he)

/-- A tree is determined by the name at the top and the edges from the names. -/
theorem Hangs.unique {es : List (String × Side × String)} {t u : BinaryTree String} (h : Hangs es t)
    (h' : Hangs es u) (htop : top? t = top? u) : t = u := by
  induction t generalizing u with
  | nil =>
    cases u with
    | nil => rfl
    | node => cases htop
  | node name a b iha ihb =>
    cases u with
    | nil => cases htop
    | node name' a' b' =>
      obtain rfl := Option.some.inj htop
      obtain ⟨hleft, hright, ha, hb⟩ := h
      obtain ⟨hleft', hright', ha', hb'⟩ := h'
      have htopLeft : top? a = top? a' := Option.ext fun c => (hleft c).symm.trans (hleft' c)
      have htopRight : top? b = top? b' := Option.ext fun c => (hright c).symm.trans (hright' c)
      rw [iha ha ha' htopLeft, ihb hb hb' htopRight]

/-- There is an edge to every name of a tree but the one at the top. -/
theorem top?_or_edge {t : BinaryTree String} {name : String} (h : name ∈ names t) :
    top? t = some name ∨ ∃ p s, (p, s, name) ∈ edges t := by
  induction t with
  | nil => cases h
  | node top a b iha ihb =>
    simp only [mem_edges_node]
    rcases mem_names_node.mp h with ha | rfl | hb
    · right
      rcases iha ha with htop | ⟨p, s, he⟩
      exacts [⟨top, .left, Or.inr (Or.inl ⟨rfl, Or.inl ⟨rfl, htop⟩⟩)⟩, ⟨p, s, Or.inl he⟩]
    · exact Or.inl rfl
    · right
      rcases ihb hb with htop | ⟨p, s, he⟩
      exacts [⟨top, .right, Or.inr (Or.inl ⟨rfl, Or.inr ⟨rfl, htop⟩⟩)⟩, ⟨p, s, Or.inr (Or.inr he)⟩]

/-- There is no edge to the name at the top. -/
theorem not_edge_of_top? {t : BinaryTree String} (h : (names t).Nodup) {name : String} (htop : top? t = some name)
    (p : String) (s : Side) : (p, s, name) ∉ edges t := by
  cases t with
  | nil => cases htop
  | node top a b =>
    obtain rfl := Option.some.inj htop
    obtain ⟨hna, hnb, -⟩ := nodup_names_node.mp h
    rw [mem_edges_node]
    rintro (he | ⟨-, ⟨-, hc⟩ | ⟨-, hc⟩⟩ | he)
    · exact hna (mem_names_of_mem_edges he).2
    · exact hna (top?_mem_names hc)
    · exact hnb (top?_mem_names hc)
    · exact hnb (mem_names_of_mem_edges he).2

/-- Trees of distinct names with the same names in order and the same edges are the same. -/
theorem eq_of_names_of_edges {t u : BinaryTree String} (h : (names t).Nodup) (hnames : names t = names u)
    (hedges : edges t = edges u) : t = u := by
  refine (hangs_edges h).unique (hedges ▸ hangs_edges (hnames ▸ h)) ?_
  cases htop : top? t with
  | none =>
    cases t with
    | nil =>
      cases u with
      | nil => rfl
      | node => simp [names] at hnames
    | node => cases htop
  | some name =>
    -- the name at the top of one tree is in the other one, where no edge leads to it either
    rcases top?_or_edge (hnames ▸ top?_mem_names htop) with htop' | ⟨p, s, he⟩
    · exact htop'.symm
    · exact absurd (hedges ▸ he) (not_edge_of_top? h htop p s)

/-- Trees of distinct plain names with the same text are the same. -/
theorem eq_of_render {t u : BinaryTree String} (hdistinct : (names t).Nodup) (ht : ∀ name ∈ names t, IsPlain name)
    (hu : ∀ name ∈ names u, IsPlain name) (h : (statements t).render = (statements u).render) : t = u := by
  have hstatements := Statements.render_inj (isStatement_of_mem_nodes ht) (isStatement_of_mem_edges ht)
    (isStatement_of_mem_nodes hu) (isStatement_of_mem_edges hu) h
  obtain ⟨hnames, hedges⟩ := names_edges_of_statements ht hu hstatements
  exact eq_of_names_of_edges hdistinct hnames hedges

/-- Whether a labelling names the elements listed apart, and by plain names. -/
structure Legible {α : Type} (label : α → String) (as : List α) : Prop where
  distinct : (as.map label).Nodup
  plain : ∀ a ∈ as, IsPlain (label a)

end Graphviz

/-! ## Drawings of trees -/

open Graphviz

namespace LinkedTree

variable {α : Type} {n : Nat} {x : LinkedTree α n} {t : Shape n}

/-- The names of the elements of a shape, in their places. -/
def namesAt (x : LinkedTree α n) (label : α → String) : Shape n → BinaryTree String
  | .empty => .nil
  | .node a l b => .node (x.nodeNameOf label l) (x.namesAt label a) (x.namesAt label b)

/-- The names of a shape's nodes are put where its links are. -/
theorem namesAt_node (label : α → String) (a : Shape n) (l : LinkId n) (b : Shape n) :
    x.namesAt label (.node a l b) = .node (x.nodeNameOf label l) (x.namesAt label a) (x.namesAt label b) :=
  rfl

/-- The tree of names is as high as the shape. -/
theorem height_namesAt (label : α → String) (t : Shape n) : (x.namesAt label t).height = t.height := by
  induction t with
  | empty => rfl
  | node a l b iha ihb => rw [namesAt_node, BinaryTree.height, iha, ihb, Shape.height, Nat.add_comm]

/-- On top of the tree of names is the name of the link on top. -/
theorem top?_namesAt (label : α → String) (t : Shape n) :
    top? (x.namesAt label t) = t.root?.map (x.nodeNameOf label) := by
  cases t <;> rfl

/-- What is drawn of the links below a slot is what the names in their places draw. -/
theorem drawing_eq_statements (label : α → String) {slot : Option (LinkId n)} {p : LinkId n}
    (h : x.links.Spans slot p t) (hx : x.links.Exact t) :
    x.drawing label t.inorder = statements (x.namesAt label t) := by
  induction t generalizing slot p with
  | empty => rfl
  | node a l b iha ihb =>
    obtain ⟨-, -, ha, hb⟩ := h
    obtain ⟨hbalance, hxa, hxb⟩ := hx
    obtain ⟨hnodes, hedges⟩ := Statements.mk.inj (iha ha hxa)
    obtain ⟨hnodes', hedges'⟩ := Statements.mk.inj (ihb hb hxb)
    have hnode : nodeStatement (x.nodeNameOf label l) (x.links.balance l) =
        filledStatement (x.nodeNameOf label l)
          (shade (x.namesAt label a).height (x.namesAt label b).height) := by
      rw [nodeStatement, hbalance, Shape.tilt, fillColor_finite, height_namesAt, height_namesAt, filledStatement]
    have hbelow : x.edgesFrom label l =
        (top? (x.namesAt label a)).toList.map (edgeStatement (x.nodeNameOf label l) .left) ++
          (top? (x.namesAt label b)).toList.map (edgeStatement (x.nodeNameOf label l) .right) := by
      simp only [edgesFrom, List.flatMap_cons, List.flatMap_nil, List.append_nil, ha.slot_eq, hb.slot_eq,
        top?_namesAt, Option.toList_map, List.map_map, Function.comp_def]
    refine congrArg₂ Statements.mk ?nodes ?edges
    case nodes =>
      rw [Shape.inorder, List.map_append, List.map_cons, hnodes, hnodes', hnode]
      simp only [namesAt_node, shaded, List.map_append, List.map_cons]
    case edges =>
      rw [Shape.inorder, List.flatMap_append, List.flatMap_cons, hedges, hedges', hbelow]
      simp only [namesAt_node, edges, List.map_append, List.map_map, Function.comp_def, List.append_assoc]

/--
Whether the tree is drawn from the names of the elements listed in their places in the shape: with a node for each in
order, and with an edge to each but the one at the top.
-/
structure Draws (x : LinkedTree α n) (label : α → String) (t : Shape n) (as : List α) : Prop where
  text : x.graphviz label = .ok (statements (x.namesAt label t)).render
  nodes : (shaded (x.namesAt label t)).map Prod.fst = as.map label
  edges : as ≠ [] → (edges (x.namesAt label t)).length + 1 = as.length

namespace Threads

/-- The names from left to right are the labels of the elements in their order. -/
theorem names_namesAt (h : x.Threads t) (label : α → String) :
    names (x.namesAt label t) = (x.elements .right t).map label := by
  have howned : ∀ l ∈ t.inorder, ∃ e, x.links.owner l = some e := fun l hl => (h.owned l hl).1
  rw [elements, Shape.linksTowards]
  clear h
  induction t with
  | empty => rfl
  | node a l b iha ihb =>
    simp only [Shape.mem_inorder_node] at howned
    obtain ⟨e, he⟩ := howned l (Or.inl rfl)
    have hname : x.nodeNameOf label l = label e := by
      rw [nodeNameOf, he, Option.map_some, Option.getD_some]
    rw [namesAt_node, names, iha fun k hk => howned k (Or.inr (Or.inl hk)),
      ihb fun k hk => howned k (Or.inr (Or.inr hk)), Shape.inorder, List.filterMap_append,
      List.filterMap_cons_some he, List.map_append, List.map_cons, hname]

/-- A tree that threads a shape draws it, with the elements in order. -/
theorem draws (h : x.Threads t) (label : α → String) : x.Draws label t (x.elements .right t) := by
  have hnames := h.names_namesAt label
  refine ⟨?_, (map_fst_shaded _).trans hnames, fun hne => ?_⟩
  · rw [h.graphviz_eq, drawing_eq_statements label h.carries.spans h.exact]
  · have hlength := congrArg List.length hnames
    rw [List.length_map] at hlength
    rw [length_edges, hlength]
    rwa [hnames, ne_eq, List.map_eq_nil_iff]

/-- Where their labellings are legible, trees with the same text have the same names in the same places. -/
theorem namesAt_eq {β : Type} {m : Nat} {y : LinkedTree β m} {u : Shape m} (h : x.Threads t) (h' : y.Threads u)
    {label : α → String} {label' : β → String} (hlegible : Legible label (x.elements .right t))
    (hlegible' : Legible label' (y.elements .right u)) (htext : y.graphviz label' = x.graphviz label) :
    y.namesAt label' u = x.namesAt label t := by
  rw [(h.draws label).text, (h'.draws label').text] at htext
  have hnames := h.names_namesAt label
  have hnames' := h'.names_namesAt label'
  refine eq_of_render (hnames' ▸ hlegible'.distinct) ?_ ?_ (Except.ok.inj htext)
  · rw [hnames']
    exact List.forall_mem_map.mpr hlegible'.plain
  · rw [hnames]
    exact List.forall_mem_map.mpr hlegible.plain

end Threads

end LinkedTree

namespace World

variable {α : Type} {n m : Nat}

/--
After any requests to the trees of a fresh world, each tree is drawn without fail from the names of its elements in
their places. Where the labellings are legible, another tree of any world that is drawn as the same text has the same
names in the same places.
-/
theorem decodes_run {w : World α n m} (h : w.Fresh) (rs : List (Fin m × Request α n)) (k : Fin m) :
    ∃ t as, ((w.run rs).tree k).Threads t ∧ ((w.run rs).tree k).toList = .ok as ∧
      ∀ label, ((w.run rs).tree k).Draws label t as ∧
        (Legible label as → ∀ {β : Type} {n' m' : Nat} {v : World β n' m'}, v.Fresh →
          ∀ (qs : List (Fin m' × Request β n')) (j : Fin m'),
            ∃ u bs, ((v.run qs).tree j).Threads u ∧ ((v.run qs).tree j).toList = .ok bs ∧
              ∀ label', Legible label' bs →
                ((v.run qs).tree j).graphviz label' = ((w.run rs).tree k).graphviz label →
                ((v.run qs).tree j).namesAt label' u = ((w.run rs).tree k).namesAt label t) := by
  obtain ⟨ts, hsound⟩ := sound_run h rs
  have hthreads := hsound.threads k
  refine ⟨ts k, _, hthreads, hthreads.collect_eq .right, fun label => ⟨hthreads.draws label, ?_⟩⟩
  intro hlegible β n' m' v hv qs j
  obtain ⟨us, hsound'⟩ := sound_run hv qs
  have hthreads' := hsound'.threads j
  refine ⟨us j, _, hthreads', hthreads'.collect_eq .right, fun label' hlegible' htext => ?_⟩
  exact hthreads.namesAt_eq hthreads' hlegible hlegible' htext

/-- The name of an element: its number. -/
def numeral (a : Fin 3) : String :=
  toString a.val

/-- Inserting in ascending order takes a rotation, and is drawn as another order is: the places are the same. -/
theorem decodes_run_rotated :
    (single 3).Fresh ∧ Legible numeral [0, 1, 2] ∧
      ((single 3).afterEach [0, 1, 2]).graphviz numeral = ((single 3).afterEach [1, 0, 2]).graphviz numeral ∧
      ∃ t u, ((single 3).afterEach [1, 0, 2]).Threads t ∧ ((single 3).afterEach [0, 1, 2]).Threads u ∧
        ((single 3).afterEach [0, 1, 2]).namesAt numeral u = ((single 3).afterEach [1, 0, 2]).namesAt numeral t := by
  have hlegible : Legible numeral [0, 1, 2] := ⟨by decide +kernel, by decide +kernel⟩
  have hlist : ((single 3).afterEach [1, 0, 2]).toList = .ok [0, 1, 2] := by decide +kernel
  have hlist' : ((single 3).afterEach [0, 1, 2]).toList = .ok [0, 1, 2] := by decide +kernel
  have htext : ((single 3).afterEach [0, 1, 2]).graphviz numeral =
      ((single 3).afterEach [1, 0, 2]).graphviz numeral := by
    decide +kernel
  obtain ⟨t, as, hthreads, hlisted, hdraws⟩ := decodes_run (fresh_single 3) (insertEach [1, 0, 2]) 0
  obtain rfl : [0, 1, 2] = as := Except.ok.inj (hlist.symm.trans hlisted)
  obtain ⟨-, hdecodes⟩ := hdraws numeral
  obtain ⟨u, bs, hthreads', hlisted', hsame⟩ := hdecodes hlegible (fresh_single 3) (insertEach [0, 1, 2]) 0
  obtain rfl : [0, 1, 2] = bs := Except.ok.inj (hlist'.symm.trans hlisted')
  exact ⟨fresh_single 3, hlegible, htext, t, u, hthreads, hthreads', hsame numeral hlegible htext⟩

end World

end BalancedLinks
