import Treegram.Document.Comparison
import Treegram.Proofs.ReachedDocuments

/-!
# Nodes that agree

Two nodes agree if they have the same label and as many children, and their children agree in order
(`Agree`). The walk with a stack ends and tells just that (`agree_eq`): at any time the answer is
whether the trees of all pairs on the stack agree, and going on from a pair to its children does not
change it. A tree is given by its nodes in order with their depths (`Forest.outline_injective`), so
nodes agree exactly if these listings of theirs are the same.
-/

namespace Treegram

/-- Whether two nodes have the same label, and the same is below both of them, by what is told of
nodes on either side. -/
inductive Agree (v w : NodeId → Option NodeView) : NodeId → NodeId → Prop
  | intro {a b : NodeId} {m n : NodeView} : v a = some m → w b = some n → m.label = n.label →
    m.children.length = n.children.length →
    (∀ p ∈ m.children.zip n.children, Agree v w p.1 p.2) → Agree v w a b

namespace Forest

variable {α β : Type}

theorem alike_iff_zip (r : α → β → Bool) : ∀ (f : Forest α) (g : Forest β),
    f.alike r g = true ↔ f.trees.length = g.trees.length ∧
      ∀ p ∈ f.trees.zip g.trees, p.1.alike r p.2 = true
  | .nil, .nil => by simp [alike, trees]
  | .nil, .cons .. => by simp [alike, trees]
  | .cons .., .nil => by simp [alike, trees]
  | .cons a kids rest, .cons b kids' rest' => by
    simp only [alike, trees, Bool.and_eq_true, alike_iff_zip r rest rest', List.length_cons,
      Nat.add_right_cancel_iff, List.zip_cons_cons, List.forall_mem_cons, Tree.alike]
    tauto

theorem size_le_of_mem_trees {t : Tree α} : ∀ {f : Forest α}, t ∈ f.trees → t.size ≤ f.size
  | .cons a kids rest, h => by
    rw [trees, List.mem_cons] at h
    rw [size]
    rcases h with rfl | h
    · rw [Tree.size]
      dsimp only
      omega
    · have := size_le_of_mem_trees h
      omega

/-! ## Listings -/

/-- Whether what a list starts with, if anything, is above `depth`. -/
def EndsAbove (depth : Nat) (l : List (Nat × α)) : Prop :=
  ∀ p ∈ l.head?, p.1 < depth

theorem endsAbove_outline {depth : Nat} {l : List (Nat × α)} (f : Forest α)
    (h : EndsAbove depth l) : EndsAbove (depth + 1) (f.outline depth ++ l) := by
  intro p hp
  cases f with
  | nil =>
    have := h p hp
    omega
  | cons a kids rest =>
    obtain rfl : (depth, a) = p := by simpa [outline] using hp
    exact Nat.lt_succ_self _

/-- A forest is read off the front of a list that goes on above it. -/
theorem outline_append_inj : ∀ {f g : Forest α} {depth : Nat} {l l' : List (Nat × α)},
    EndsAbove depth l → EndsAbove depth l' → f.outline depth ++ l = g.outline depth ++ l' →
      f = g ∧ l = l'
  | .nil, .nil, _, _, _, _, _, h => ⟨rfl, h⟩
  | .nil, .cons a kids rest, depth, l, l', hl, _, h => by
    have := hl (depth, a) (by
      rw [outline, List.nil_append] at h
      rw [h, outline]
      rfl)
    exact absurd this (Nat.lt_irrefl _)
  | .cons a kids rest, .nil, depth, l, l', _, hl', h => by
    have := hl' (depth, a) (by
      rw [outline, outline, List.nil_append] at h
      rw [← h]
      rfl)
    exact absurd this (Nat.lt_irrefl _)
  | .cons a kids rest, .cons b kids' rest', depth, l, l', hl, hl', h => by
    simp only [outline, List.cons_append, List.cons.injEq, Prod.mk.injEq, true_and,
      List.append_assoc] at h
    obtain ⟨rfl, h⟩ := h
    -- what is below the node is deeper than the siblings behind it, so it ends where they start
    obtain ⟨rfl, hrest⟩ :=
      outline_append_inj (endsAbove_outline rest hl) (endsAbove_outline rest' hl') h
    obtain ⟨rfl, rfl⟩ := outline_append_inj hl hl' hrest
    exact ⟨rfl, rfl⟩

theorem outline_injective {f g : Forest α} {depth : Nat} (h : f.outline depth = g.outline depth) :
    f = g := by
  have hnil : EndsAbove depth ([] : List (Nat × α)) := by simp [EndsAbove]
  refine (outline_append_inj hnil hnil ?_).1
  rw [h]

end Forest

theorem Tree.outline_inj {α : Type} {t u : Tree α} : t.outline = u.outline ↔ t = u := by
  constructor
  · intro h
    rw [outline, outline, List.cons.injEq, Prod.mk.injEq] at h
    rcases t with ⟨a, f⟩
    rcases u with ⟨b, g⟩
    obtain ⟨⟨-, rfl⟩, h⟩ := h
    obtain rfl := Forest.outline_injective h
    rfl
  · rintro rfl
    rfl

theorem Tree.sameAs_iff_zip {t u : Tree Node} : t.sameAs u = true ↔
    t.node.label = u.node.label ∧ t.children.trees.length = u.children.trees.length ∧
      ∀ p ∈ t.children.trees.zip u.children.trees, p.1.sameAs p.2 = true := by
  unfold sameAs
  rw [alike, Bool.and_eq_true, decide_eq_true_eq, Forest.alike_iff_zip]
  rfl

/-! ## The walk along the links -/

namespace LinkedDocument

variable {c d : LinkedDocument}

def pairIds (p : Tree Node × Tree Node) : NodeId × NodeId :=
  (p.1.node.id, p.2.node.id)

theorem pairFrom_spec : ∀ {f g : Forest Node} {parent previous parent' previous' : Option NodeId}
    (stack : List (NodeId × NodeId)), Joined c.get? parent previous none f →
    Joined d.get? parent' previous' none g → c.pairFrom d stack f.firstId? g.firstId? =
      some (if f.trees.length = g.trees.length then
        some (((f.trees.zip g.trees).map pairIds).reverse ++ stack) else none)
  | .nil, .nil, _, _, _, _, stack, _, _ => by
    simp [Forest.firstId?, Forest.trees, pairFrom]
  | .nil, .cons n kids rest, _, _, _, _, stack, _, _ => by
    simp [Forest.firstId?, Forest.trees, pairFrom]
  | .cons m kids rest, .nil, _, _, _, _, stack, _, _ => by
    simp [Forest.firstId?, Forest.trees, pairFrom]
  | .cons m kids rest, .cons n kids' rest', _, _, _, _, stack, ⟨hm, _, hrest⟩, ⟨hn, _, hrest'⟩ => by
    show c.pairFrom d stack (some m.id) (some n.id) = _
    rw [pairFrom, hm, hn]
    simp only [Option.bind_eq_bind, Option.bind_some, Option.or_none]
    rw [pairFrom_spec _ hrest hrest', Forest.trees, Forest.trees]
    simp only [List.length_cons, Nat.add_right_cancel_iff, List.zip_cons_cons, List.map_cons,
      List.reverse_cons, List.append_assoc, List.singleton_append]
    rfl

theorem sum_size_zip {l l' : List (Tree Node)} (h : l.length = l'.length) :
    ((l.zip l').map fun p => p.1.size).sum = (l.map Tree.size).sum := by
  have hfst : (l.zip l').map Prod.fst = l := List.map_fst_zip (Nat.le_of_eq h)
  conv_rhs => rw [← hfst, List.map_map]
  rfl

/-- The pairs on the stack agree exactly if their trees do. -/
theorem agree_eq : ∀ ps : List (Tree Node × Tree Node),
    (∀ p ∈ ps, Standing c.get? p.1 ∧ Standing d.get? p.2) →
      c.agree d (ps.map pairIds) = some (ps.all fun p => p.1.sameAs p.2)
  | [], _ => by
    rw [List.map_nil, agree]
    rfl
  | (t, u) :: ps, h => by
    rw [List.forall_mem_cons] at h
    obtain ⟨⟨⟨⟨_, _, _, hm⟩, hkids⟩, ⟨_, _, _, hn⟩, hkids'⟩, hps⟩ := h
    rw [List.map_cons, pairIds, agree, hm, hn, List.all_cons]
    simp only [Option.bind_eq_bind, Option.bind_some]
    by_cases hlabel : t.node.label = u.node.label
    · rw [if_neg (not_not_intro hlabel), pairFrom_spec _ hkids hkids', Option.bind_some]
      by_cases hlength : t.children.trees.length = u.children.trees.length
      · rw [if_pos hlength]
        dsimp only
        -- instead of the pair there are those of its children, with the last ones on top
        rw [← List.map_reverse, ← List.map_append, agree_eq, List.all_append, List.all_reverse]
        · congr 2
          rw [Bool.eq_iff_iff, List.all_eq_true, Tree.sameAs_iff_zip]
          tauto
        · intro p hp
          rcases List.mem_append.1 hp with hp | hp
          · have hmem := List.of_mem_zip (List.mem_reverse.1 hp)
            exact ⟨hkids.standing _ hmem.1, hkids'.standing _ hmem.2⟩
          · exact hps p hp
      · have hfalse : t.sameAs u = false := by
          rw [← Bool.not_eq_true, Tree.sameAs_iff_zip]
          tauto
        rw [if_neg hlength, hfalse]
        rfl
    · have hfalse : t.sameAs u = false := by
        rw [← Bool.not_eq_true, Tree.sameAs_iff_zip]
        tauto
      rw [if_pos hlabel, hfalse]
      rfl
-- each step takes the two own nodes of a pair off the trees
termination_by ps => (ps.map fun p => p.1.size).sum
decreasing_by
  rw [List.map_append, List.sum_append, List.map_reverse, List.sum_reverse, sum_size_zip hlength,
    ← Forest.size_eq_sum, List.map_cons, List.sum_cons, Tree.size]
  dsimp only
  omega

/-! ## What is told of the nodes -/

theorem view_of_standing {t : Tree Node} (h : Standing c.get? t) :
    ∃ parent, c.view t.node.id = some ⟨t.node.label, parent, t.children.tops⟩ := by
  obtain ⟨⟨parent, _, _, hn⟩, hkids⟩ := h
  refine ⟨parent, ?_⟩
  simp only [view, hn, Option.bind_eq_bind, Option.bind_some, siblingsFrom_spec hkids]
  rfl

/-- Nodes agree exactly if their trees do. -/
theorem agree_view_iff : ∀ {t u : Tree Node}, Standing c.get? t → Standing d.get? u →
    (Agree c.view d.view t.node.id u.node.id ↔ t.sameAs u = true)
  | t, u, ht, hu => by
    obtain ⟨p, hview⟩ := view_of_standing ht
    obtain ⟨q, hview'⟩ := view_of_standing hu
    have hchildren : ∀ x ∈ t.children.trees.zip u.children.trees,
        (Agree c.view d.view x.1.node.id x.2.node.id ↔ x.1.sameAs x.2 = true) := by
      intro x hx
      have hmem := List.of_mem_zip hx
      have hlt := Forest.size_le_of_mem_trees hmem.1
      exact agree_view_iff (ht.2.standing _ hmem.1) (hu.2.standing _ hmem.2)
    rw [Tree.sameAs_iff_zip]
    constructor
    · rintro ⟨hm, hn, hlabel, hlength, hkids⟩
      obtain rfl := Option.some.inj (hview.symm.trans hm)
      obtain rfl := Option.some.inj (hview'.symm.trans hn)
      rw [Forest.tops_eq_map, Forest.tops_eq_map, List.length_map, List.length_map] at hlength
      rw [Forest.tops_eq_map, Forest.tops_eq_map, List.zip_map, List.forall_mem_map] at hkids
      exact ⟨hlabel, hlength, fun x hx => (hchildren x hx).1 (hkids x hx)⟩
    · rintro ⟨hlabel, hlength, hkids⟩
      refine .intro hview hview' hlabel ?_ ?_
      · rw [Forest.tops_eq_map, Forest.tops_eq_map, List.length_map, List.length_map, hlength]
      · rw [Forest.tops_eq_map, Forest.tops_eq_map, List.zip_map, List.forall_mem_map]
        exact fun x hx => (hchildren x hx).2 (hkids x hx)
termination_by t => t.size
decreasing_by
  exact Nat.lt_succ_of_le hlt

end LinkedDocument

/-! ## Nodes of documents that are reached -/

namespace ReachedNode

/-- The nodes from this one down, each before its children, with their depths below it. -/
def outline (a : ReachedNode) : List (Nat × Label) :=
  a.tree.labels.outline

def compare (a b : ReachedNode) : Option Bool :=
  a.links.sameSubtree a.id b.links b.id

variable (a b : ReachedNode)

theorem compare_eq : a.compare b = some (a.tree.sameAs b.tree) := by
  have h := LinkedDocument.agree_eq (c := a.links) (d := b.links) [(a.tree, b.tree)]
    (List.forall_mem_singleton.2 ⟨a.standing, b.standing⟩)
  rw [List.map_singleton, LinkedDocument.pairIds, a.node_id, b.node_id] at h
  rw [compare, LinkedDocument.sameSubtree, h]
  simp

theorem sameSubtree_eq :
    a.document.sameSubtree a.id b.document b.id = .ok (a.tree.sameAs b.tree) := by
  have hloop : ∀ n : ReachedNode, n.document.isLoop n.id = false := by
    intro n
    rw [Document.isLoop, n.holds.strays, List.any_nil]
  rw [Document.sameSubtree, a.alive, b.alive]
  simp [bind, Except.bind, pure, Except.pure, hloop]

theorem sameAs_iff_outline : a.tree.sameAs b.tree = true ↔ a.outline = b.outline := by
  rw [Tree.sameAs_iff, outline, outline, Tree.outline_inj]

/-- The comparison of two live nodes ends, with the answer whether they agree, which is whether they
have the same listing. So it is an equivalence, and nodes with the same listing are compared with
the same result, wherever they are. -/
theorem compare_exact :
    (∀ a b : ReachedNode, ∃ same, a.compare b = some same ∧
      a.document.sameSubtree a.id b.document b.id = .ok same ∧
      (same = true ↔ Agree a.links.view b.links.view a.id b.id) ∧
      (same = true ↔ a.outline = b.outline)) ∧
    (Equivalence fun a b : ReachedNode => a.compare b = some true) ∧
    ∀ a a' b b' : ReachedNode, a.outline = a'.outline → b.outline = b'.outline →
      a.compare b = a'.compare b' := by
  have hiff : ∀ a b : ReachedNode, a.compare b = some true ↔ a.outline = b.outline := by
    intro a b
    rw [compare_eq, Option.some.injEq, sameAs_iff_outline]
  refine ⟨fun a b => ⟨a.tree.sameAs b.tree, a.compare_eq b, a.sameSubtree_eq b, ?_,
    a.sameAs_iff_outline b⟩, ⟨fun a => ?_, fun {a b} h => ?_, fun {a b c} h h' => ?_⟩, ?_⟩
  · rw [← a.node_id, ← b.node_id, LinkedDocument.agree_view_iff a.standing b.standing]
  · exact (hiff a a).2 rfl
  · exact (hiff b a).2 ((hiff a b).1 h).symm
  · exact (hiff a c).2 (((hiff a b).1 h).trans ((hiff b c).1 h'))
  · intro a a' b b' ha hb
    rw [compare_eq, compare_eq, Option.some.injEq, Bool.eq_iff_iff, sameAs_iff_outline,
      sameAs_iff_outline, ha, hb]

/-- A response with a text. -/
def direct : List Edit :=
  [.appendChild ⟨0⟩ .element "response" "", .appendChild ⟨1⟩ .data "" "x"]

/-- A response with a text, in the slots behind those of an element that was removed. -/
def detour : List Edit :=
  [.appendChild ⟨0⟩ .element "a" "", .appendChild ⟨0⟩ .element "response" "",
    .appendChild ⟨2⟩ .data "" "x", .remove ⟨1⟩]

theorem compare_exact_detour : ∃ a b : ReachedNode,
    (a.document = direct.foldl Document.edit .empty ∧ a.id = ⟨1⟩) ∧
    (b.document = detour.foldl Document.edit .empty ∧ b.id = ⟨2⟩) ∧
    a.outline = b.outline ∧ a.compare b = some true ∧ a.compare b = b.compare a := by
  obtain ⟨c, -, hc⟩ := Reached.run direct .empty (by decide)
  obtain ⟨c', -, hc'⟩ := Reached.run detour .empty (by decide)
  let a : ReachedNode := ⟨⟨c, _, hc⟩, ⟨1⟩, _, rfl⟩
  let b : ReachedNode := ⟨⟨c', _, hc'⟩, ⟨2⟩, _, rfl⟩
  have houtline : a.outline = b.outline := rfl
  obtain ⟨hexact, -, hcongr⟩ := compare_exact
  obtain ⟨same, hsame, -, -, hiff⟩ := hexact a b
  rw [hiff.2 houtline] at hsame
  exact ⟨a, b, ⟨rfl, rfl⟩, ⟨rfl, rfl⟩, houtline, hsame, hcongr a b b a houtline houtline.symm⟩

end ReachedNode

end Treegram
