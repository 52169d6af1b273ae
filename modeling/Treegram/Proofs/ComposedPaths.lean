import Mathlib.Data.List.Find
import Treegram.Path.Linked
import Treegram.Proofs.Comparisons

/-!
# Paths that go on from paths

A path without an at sign leads to a node or to none, and a path that goes on behind it is answered
as from that node (`compose_exact`): the parts of both paths are those of the one path, one after
the other, and an at sign is in a wrong place in it exactly if it is so in the second path.
-/

namespace Treegram

namespace Path

variable {a : Char}

theorem parts_ne_nil (sep : Char) : ∀ cs : List Char, parts sep cs ≠ []
  | [] => by simp [parts]
  | c :: cs => by
    rw [parts]
    split
    · simp
    · split <;> simp

theorem parts_append (sep : Char) (q : List Char) : ∀ p : List Char,
    parts sep (p ++ sep :: q) = parts sep p ++ parts sep q
  | [] => by simp [parts]
  | c :: cs => by
    rw [List.cons_append, parts, parts, parts_append sep q cs]
    split
    · rfl
    · rcases h : parts sep cs with _ | ⟨part, ps⟩
      · exact absurd h (parts_ne_nil sep cs)
      · rfl

theorem not_mem_of_mem_parts (sep : Char) : ∀ {cs : List Char}, a ∉ cs →
    ∀ s ∈ parts sep cs, a ∉ s
  | [], _, s, hs => by simp_all [parts]
  | c :: cs, h, s, hs => by
    rw [List.mem_cons, not_or] at h
    have ih := not_mem_of_mem_parts sep h.2
    rw [parts] at hs
    split at hs
    · rcases List.mem_cons.1 hs with rfl | hs
      · simp
      · exact ih s hs
    · split at hs
      · simp_all
      · rename_i part ps hparts
        rw [hparts, List.forall_mem_cons] at ih
        rcases List.mem_cons.1 hs with rfl | hs
        · simp [h.1, ih.1]
        · exact ih.2 s hs

theorem cut?_of_not_mem : ∀ {cs : List Char}, a ∉ cs → cut? a cs = none
  | [], _ => rfl
  | c :: cs, h => by
    rw [List.mem_cons, not_or] at h
    rw [cut?, if_neg (Ne.symm h.1), cut?_of_not_mem h.2]
    rfl

theorem exists_parts (path : String) : ∃ inner last, parts '/' path.toList = inner ++ [last] :=
  ⟨_, _, (List.dropLast_append_getLast (parts_ne_nil '/' _)).symm⟩

/-- Whether an at sign stands in front of the last part of a path. -/
def IsMisplaced (path : String) : Prop :=
  ∃ s ∈ (parts '/' path.toList).dropLast, '@' ∈ s

instance (path : String) : Decidable (IsMisplaced path) :=
  inferInstanceAs (Decidable (∃ s ∈ _, _))

theorem any_contains_eq (path : String) :
    ((parts '/' path.toList).dropLast.any fun s => s.contains '@') =
      decide (IsMisplaced path) := by
  rw [Bool.eq_iff_iff, decide_eq_true_eq]
  simp [IsMisplaced]

theorem isMisplaced_iff {path : String} {inner : List (List Char)} {last : List Char}
    (h : parts '/' path.toList = inner ++ [last]) :
    IsMisplaced path ↔ ∃ s ∈ inner, '@' ∈ s := by
  rw [IsMisplaced, h, List.dropLast_concat]

theorem parts_compose (p q : String) : parts '/' (p ++ "/" ++ q).toList =
    parts '/' p.toList ++ parts '/' q.toList := by
  rw [String.toList_append, String.toList_append, List.append_assoc]
  exact parts_append '/' q.toList p.toList

theorem isMisplaced_compose {p : String} (hp : '@' ∉ p.toList) (q : String) :
    IsMisplaced (p ++ "/" ++ q) ↔ IsMisplaced q := by
  obtain ⟨inner, last, hq⟩ := exists_parts q
  have hpq : parts '/' (p ++ "/" ++ q).toList = (parts '/' p.toList ++ inner) ++ [last] := by
    rw [parts_compose, hq, List.append_assoc]
  have hplain := not_mem_of_mem_parts '/' hp
  rw [isMisplaced_iff hq, isMisplaced_iff hpq]
  constructor
  · rintro ⟨s, hs, ha⟩
    rcases List.mem_append.1 hs with hs | hs
    · exact absurd ha (hplain s hs)
    · exact ⟨s, hs, ha⟩
  · rintro ⟨s, hs, ha⟩
    exact ⟨s, List.mem_append_right _ hs, ha⟩

theorem not_isMisplaced {p : String} (hp : '@' ∉ p.toList) : ¬IsMisplaced p := by
  rintro ⟨s, hs, ha⟩
  exact not_mem_of_mem_parts '/' hp s (List.dropLast_subset _ hs) ha

/-- The names in a path, in order. -/
def names (path : String) : List String :=
  ((parts '/' path.toList).filter fun s => s ≠ []).map String.ofList

end Path

namespace Tree

variable {α : Type} [Labelled α] {t u : Tree α} {p q : String}

theorem walk?_append : ∀ (xs ys : List (List Char)) (t : Tree α),
    t.walk? (xs ++ ys) = (t.walk? xs).bind fun u => u.walk? ys
  | [], ys, t => rfl
  | x :: xs, ys, t => by
    rw [List.cons_append, walk?, walk?, Option.bind_assoc]
    congr 1
    funext u
    exact walk?_append xs ys u

def lastPart (t : Tree α) (part : List Char) : Except PathFault (Tree α × Option String) :=
  match Path.cut? '@' part with
  | none =>
    match t.descend? part with
    | none => .error .notFound
    | some u => .ok (u, none)
  | some (name, attr) =>
    match t.descend? name with
    | none => .error .notFound
    | some u =>
      if attr = [] ∨ attr.contains '@' then .error .syntaxError
      else .ok (u, some (String.ofList attr))

theorem resolve_eq {inner : List (List Char)} {last : List Char}
    (h : Path.parts '/' p.toList = inner ++ [last]) : t.resolve p =
      if Path.IsMisplaced p then .error .syntaxError
      else
        match t.walk? inner with
        | none => .error .notFound
        | some u => u.lastPart last := by
  simp only [resolve, Path.any_contains_eq, decide_eq_true_eq]
  simp only [h, List.dropLast_concat, List.getLastD_concat, walk?_append]
  split
  · rfl
  · rcases t.walk? inner with _ | u
    · rfl
    · unfold lastPart
      rcases Path.cut? '@' last with _ | ⟨name, attr⟩
      · simp only [Option.bind_some, walk?]
        rcases u.descend? last with _ | v <;> rfl
      · simp only [Option.bind_some, walk?]
        rcases u.descend? name with _ | v <;> rfl

theorem resolve_plain (hp : '@' ∉ p.toList) : t.resolve p =
    match t.walk? (Path.parts '/' p.toList) with
    | none => .error .notFound
    | some u => .ok (u, none) := by
  obtain ⟨inner, last, h⟩ := Path.exists_parts p
  have hlast : '@' ∉ last := Path.not_mem_of_mem_parts '/' hp last (by simp [h])
  rw [resolve_eq h, if_neg (Path.not_isMisplaced hp), h, walk?_append]
  rcases t.walk? inner with _ | u
  · rfl
  · simp only [lastPart, Path.cut?_of_not_mem hlast, Option.bind_some, walk?]
    rcases u.descend? last with _ | v <;> rfl

theorem firstNode_plain (hp : '@' ∉ p.toList) : t.firstNode p =
    match t.walk? (Path.parts '/' p.toList) with
    | none => .error .notFound
    | some u => .ok u := by
  rw [firstNode, resolve_plain hp]
  rcases t.walk? (Path.parts '/' p.toList) with _ | u <;> rfl

theorem resolve_compose (hp : '@' ∉ p.toList) (q : String) : t.resolve (p ++ "/" ++ q) =
    match t.walk? (Path.parts '/' p.toList) with
    | none => .error (if Path.IsMisplaced q then .syntaxError else .notFound)
    | some u => u.resolve q := by
  obtain ⟨inner, last, hq⟩ := Path.exists_parts q
  have hpq : Path.parts '/' (p ++ "/" ++ q).toList =
      (Path.parts '/' p.toList ++ inner) ++ [last] := by
    rw [Path.parts_compose, hq, List.append_assoc]
  rw [resolve_eq hpq, walk?_append]
  simp only [Path.isMisplaced_compose hp]
  rcases t.walk? (Path.parts '/' p.toList) with _ | u
  · simp only [Option.bind_none]
    split <;> rfl
  · simp only [Option.bind_some]
    rw [resolve_eq hq]

def ask (t : Tree Node) (path : String) {β : Type} : Query β → Except PathFault β
  | .node => (t.firstNode path).map fun u => u.node.id
  | .text => t.firstText path
  | .textWithin limit => t.firstTextWithin path limit
  | .parsed read? => t.firstParsed path read?
  | .flag => t.firstFlag path

theorem ask_congr {t u : Tree Node} (h : t.resolve p = u.resolve q) {β : Type} (query : Query β) :
    t.ask p query = u.ask q query := by
  cases query <;> simp only [ask, firstFlag, firstParsed, firstTextWithin, firstText, firstNode, h]

theorem ask_of_error {t : Tree Node} {e : PathFault} (h : t.resolve p = .error e) {β : Type}
    (query : Query β) : t.ask p query = .error e := by
  cases query <;> simp only [ask, firstFlag, firstParsed, firstTextWithin, firstText, firstNode, h]
    <;> rfl

theorem ask_compose {t : Tree Node} (hp : '@' ∉ p.toList) (q : String) {β : Type}
    (query : Query β) : t.ask (p ++ "/" ++ q) query =
      match t.walk? (Path.parts '/' p.toList) with
      | none => .error (if Path.IsMisplaced q then .syntaxError else .notFound)
      | some u => u.ask q query := by
  have h := t.resolve_compose hp q
  rcases hwalk : t.walk? (Path.parts '/' p.toList) with _ | u <;> rw [hwalk] at h
  · exact ask_of_error h query
  · exact ask_congr h query

end Tree

/-! ## Paths along links -/

namespace Forest

theorem element?_eq_find? {α : Type} [Labelled α] (name : String) : ∀ f : Forest α,
    f.element? name = f.trees.find? fun t => (label t.node).isElement name
  | .nil => rfl
  | .cons a kids rest => by
    rw [element?, trees, List.find?_cons, element?_eq_find? name rest]
    dsimp only
    cases (label a).isElement name <;> rfl

end Forest

variable {c : LinkedDocument} {t : Tree Node}

theorem Joined.elementFrom (name : String) : ∀ {f : Forest Node} {parent previous : Option NodeId},
    Joined c.get? parent previous none f →
      c.elementFrom name f.firstId? = some ((f.element? name).map fun u => u.node.id)
  | .nil, _, _, _ => by
    rw [Forest.firstId?, LinkedDocument.elementFrom]
    rfl
  | .cons n kids rest, _, _, ⟨hn, _, hrest⟩ => by
    rw [Forest.firstId?, LinkedDocument.elementFrom, hn, Forest.element?]
    simp only [Option.bind_eq_bind, Option.bind_some, Option.or_none, hrest.elementFrom name]
    show (if n.label.isElement name = true then _ else _) =
      some (Option.map _ (if n.label.isElement name = true then _ else _))
    split <;> rfl

theorem Standing.firstChildNamed (h : Standing c.get? t) (name : String) :
    c.firstChildNamed t.node.id name = some ((t.childNamed? name).map fun u => u.node.id) := by
  obtain ⟨⟨_, _, _, hn⟩, hkids⟩ := h
  rw [LinkedDocument.firstChildNamed, hn]
  exact hkids.elementFrom name

theorem Standing.of_childNamed? {u : Tree Node} {name : String} (h : Standing c.get? t)
    (hu : t.childNamed? name = some u) : u ∈ t.children.trees ∧ Standing c.get? u := by
  rw [Tree.childNamed?, Forest.element?_eq_find?] at hu
  have hmem := List.mem_of_find?_eq_some hu
  exact ⟨hmem, h.2.standing u hmem⟩

theorem Standing.descend (h : Standing c.get? t) (name : List Char) :
    (t.descend? name = none ∧ (c.descend t.node.id name).run = some (.error .notFound)) ∨
      ∃ u, t.descend? name = some u ∧ (c.descend t.node.id name).run = some (.ok u.node.id) ∧
        Standing c.get? u := by
  rw [LinkedDocument.descend, Tree.descend?]
  by_cases hname : name = []
  · rw [if_pos hname, if_pos hname]
    exact .inr ⟨t, rfl, rfl, h⟩
  · rw [if_neg hname, if_neg hname, h.firstChildNamed]
    rcases hfound : t.childNamed? (String.ofList name) with _ | u
    · exact .inl ⟨rfl, rfl⟩
    · exact .inr ⟨u, rfl, rfl, (h.of_childNamed? hfound).2⟩

theorem Lookup.run_bind {α β : Type} (x : Lookup α) (f : α → Lookup β) : (x >>= f).run =
    x.run.bind fun r =>
      match r with
      | .ok a => (f a).run
      | .error e => some (.error e) := by
  show x.run.bind _ = _
  congr 1
  funext r
  cases r <;> rfl

theorem LinkedDocument.resolve_cons (c : LinkedDocument) (id : NodeId) {part : List Char}
    (h : '@' ∉ part) (parts : List (List Char)) :
    c.resolve id (part :: parts) = c.descend id part >>= fun id => c.resolve id parts := by
  rw [LinkedDocument.resolve, Path.cut?_of_not_mem h]

/-- The parts in front of the last one lead along the links to where they lead in the tree. -/
theorem Standing.resolve_append : ∀ {inner : List (List Char)} {t : Tree Node},
    Standing c.get? t → (∀ s ∈ inner, '@' ∉ s) → ∀ last,
      (t.walk? inner = none ∧ (c.resolve t.node.id (inner ++ [last])).run =
        some (.error .notFound)) ∨
      ∃ u, t.walk? inner = some u ∧ (c.resolve t.node.id (inner ++ [last])).run =
        (c.resolve u.node.id [last]).run ∧ Standing c.get? u
  | [], t, h, _, last => .inr ⟨t, rfl, rfl, h⟩
  | part :: inner, t, h, hplain, last => by
    rw [List.forall_mem_cons] at hplain
    rw [List.cons_append, LinkedDocument.resolve_cons c _ hplain.1, Lookup.run_bind, Tree.walk?]
    rcases h.descend part with ⟨hnone, hc⟩ | ⟨u, hu, hc, hstanding⟩
    · rw [hnone, hc]
      exact .inl ⟨rfl, rfl⟩
    · rw [hu, hc]
      exact hstanding.resolve_append hplain.2 last

theorem Standing.resolve_last {part : List Char} (h : Standing c.get? t) :
    (∃ e, t.lastPart part = .error e ∧ (c.resolve t.node.id [part]).run = some (.error e)) ∨
      ∃ u attr, t.lastPart part = .ok (u, attr) ∧
        (c.resolve t.node.id [part]).run = some (.ok (u.node.id, attr)) ∧ Standing c.get? u := by
  unfold Tree.lastPart
  rw [LinkedDocument.resolve]
  rcases Path.cut? '@' part with _ | ⟨name, attr⟩
  · simp only [Lookup.run_bind]
    rcases h.descend part with ⟨hnone, hc⟩ | ⟨u, hu, hc, hstanding⟩
    · rw [hnone, hc]
      exact .inl ⟨_, rfl, rfl⟩
    · rw [hu, hc]
      exact .inr ⟨u, none, rfl, rfl, hstanding⟩
  · simp only [ne_eq, not_true_eq_false, if_false, Lookup.run_bind]
    rcases h.descend name with ⟨hnone, hc⟩ | ⟨u, hu, hc, hstanding⟩
    · rw [hnone, hc]
      exact .inl ⟨_, rfl, rfl⟩
    · rw [hu, hc]
      simp only [Option.bind_some]
      by_cases hattr : attr = [] ∨ attr.contains '@' = true
      · rw [if_pos hattr, if_pos hattr]
        exact .inl ⟨_, rfl, rfl⟩
      · rw [if_neg hattr, if_neg hattr]
        exact .inr ⟨u, _, rfl, rfl, hstanding⟩

theorem Standing.lead (h : Standing c.get? t) (path : String) :
    (∃ e, t.resolve path = .error e ∧ (c.lead t.node.id path).run = some (.error e)) ∨
      ∃ u attr, t.resolve path = .ok (u, attr) ∧
        (c.lead t.node.id path).run = some (.ok (u.node.id, attr)) ∧ Standing c.get? u := by
  obtain ⟨inner, last, hparts⟩ := Path.exists_parts path
  rw [Tree.resolve_eq hparts, LinkedDocument.lead]
  simp only [Path.any_contains_eq, decide_eq_true_eq]
  by_cases hmisplaced : Path.IsMisplaced path
  · rw [if_pos hmisplaced, if_pos hmisplaced]
    exact .inl ⟨_, rfl, rfl⟩
  · rw [if_neg hmisplaced, if_neg hmisplaced, hparts]
    -- so none of the parts in front of the last one stops the walk
    have hplain : ∀ s ∈ inner, '@' ∉ s := fun s hs ha =>
      hmisplaced ((Path.isMisplaced_iff hparts).2 ⟨s, hs, ha⟩)
    rcases h.resolve_append hplain last with ⟨hnone, hc⟩ | ⟨u, hu, hc, hstanding⟩
    · rw [hnone, hc]
      exact .inl ⟨_, rfl, rfl⟩
    · rw [hu, hc]
      exact hstanding.resolve_last

theorem Standing.firstText (h : Standing c.get? t) (path : String) :
    (c.firstText t.node.id path).run = some (t.firstText path) := by
  rw [LinkedDocument.firstText, Tree.firstText, Lookup.run_bind]
  rcases h.lead path with ⟨e, ht, hc⟩ | ⟨u, attr, ht, hc, ⟨_, _, _, hn⟩, -⟩
  · rw [ht, hc]
    rfl
  · rw [ht, hc]
    have hlift {α : Type} (a : α) : (ExceptT.lift (some a) : Lookup α).run = some (.ok a) := rfl
    simp only [Option.bind_some, Lookup.run_bind, hn, hlift]
    rcases attr with _ | name
    · rfl
    · have hattribute : u.attribute? name = u.node.label.attribute? name := rfl
      simp only [bind, Except.bind, hattribute]
      rcases u.node.label.attribute? name with _ | value <;> rfl

theorem Standing.ask (h : Standing c.get? t) (path : String) {β : Type} (query : Query β) :
    (c.ask t.node.id path query).run = some (t.ask path query) := by
  have htext := h.firstText path
  cases query with
  | node =>
    show (c.firstNode t.node.id path).run = some ((t.firstNode path).map _)
    rw [LinkedDocument.firstNode, Tree.firstNode, Lookup.run_bind]
    rcases h.lead path with ⟨e, ht, hc⟩ | ⟨u, _ | attr, ht, hc, -⟩ <;> rw [ht, hc] <;> rfl
  | text => exact htext
  | textWithin limit =>
    show (c.firstTextWithin t.node.id path limit).run = some (t.firstTextWithin path limit)
    rw [LinkedDocument.firstTextWithin, Tree.firstTextWithin, Lookup.run_bind, htext]
    rcases t.firstText path with e | value
    · rfl
    · simp only [Option.bind_some, bind, Except.bind]
      split <;> rfl
  | parsed read? =>
    show (c.firstParsed t.node.id path read?).run = some (t.firstParsed path read?)
    rw [LinkedDocument.firstParsed, Tree.firstParsed, Lookup.run_bind, htext]
    rcases t.firstText path with e | value
    · rfl
    · simp only [Option.bind_some, bind, Except.bind]
      rcases read? (trim value.toList) with _ | b <;> rfl
  | flag =>
    show (c.firstFlag t.node.id path).run = some (t.firstFlag path)
    rw [LinkedDocument.firstFlag, Tree.firstFlag, Lookup.run_bind, htext]
    rcases t.firstText path with e | value
    · rfl
    · simp only [Option.bind_some, bind, Except.bind]
      rcases flag? value with _ | b <;> rfl

/-! ## Nodes of documents that are reached -/

theorem Forest.exists_append_of_mem_trees {u : Tree Node} : ∀ {f : Forest Node}, u ∈ f.trees →
    ∃ front back, f = front ++ .cons u.node u.children back
  | .cons n kids rest, h => by
    rcases List.mem_cons.1 h with rfl | h
    · exact ⟨.nil, rest, rfl⟩
    · obtain ⟨front, back, rfl⟩ := exists_append_of_mem_trees h
      exact ⟨.cons n kids front, back, rfl⟩

/-- The first of the children that are told of a node to be an element named `name`. -/
def firstNamed? (v : NodeId → Option NodeView) (parent : NodeId) (name : String) :
    Option NodeId := do
  (← v parent).children.find? fun k => (v k).any fun n => n.label.isElement name

namespace ReachedNode

variable (n : ReachedNode)

theorem exists_child {u : Tree Node} (hu : u ∈ n.tree.children.trees) :
    ∃ m : ReachedNode, m.toReachedDocument = n.toReachedDocument ∧ m.tree = u := by
  obtain ⟨s, front, back, -, hf⟩ := n.exists_place
  obtain ⟨before, behind, hkids⟩ := Forest.exists_append_of_mem_trees hu
  have hplace : n.document.forest = (Spot.under n.tree.node front back s).fill
      (before ++ .cons u.node u.children behind) := by
    rw [hf, hkids]
    rfl
  have halive : n.document.subtree u.node.id = .ok u := by
    rw [Document.subtree, n.holds.subtree? hplace]
  exact ⟨⟨n.toReachedDocument, u.node.id, u, halive⟩, rfl, rfl⟩

theorem firstNamed?_eq (name : String) : firstNamed? n.links.view n.id name =
    (n.tree.childNamed? name).map fun u => u.node.id := by
  obtain ⟨parent, hview⟩ := LinkedDocument.view_of_standing n.standing
  rw [n.node_id] at hview
  rw [firstNamed?, hview, Tree.childNamed?, Forest.element?_eq_find?]
  show n.tree.children.tops.find? _ = _
  rw [Forest.tops_eq_map, List.find?_map]
  congr 1
  refine List.find?_congr fun u hu => ?_
  obtain ⟨q, hchild⟩ := LinkedDocument.view_of_standing (n.standing.2.standing u hu)
  rw [Function.comp, hchild]
  rfl

/-- The parts of a path lead to a node of the same document or to none. -/
theorem exists_walk : ∀ (parts : List (List Char)) (n : ReachedNode), ∃ r : Option ReachedNode,
    (∀ m ∈ r, m.toReachedDocument = n.toReachedDocument) ∧
    n.tree.walk? parts = r.map (fun m => m.tree) ∧
    ((parts.filter fun s => s ≠ []).map String.ofList).foldlM (firstNamed? n.links.view) n.id =
      r.map fun m => m.id
  | [], n => ⟨some n, by simp, rfl, rfl⟩
  | part :: parts, n => by
    by_cases hpart : part = []
    · subst hpart
      exact exists_walk parts n
    · rw [List.filter_cons_of_pos (by simpa using hpart), List.map_cons, List.foldlM_cons,
        firstNamed?_eq, Tree.walk?, Tree.descend?, if_neg hpart]
      rcases hfound : n.tree.childNamed? (String.ofList part) with _ | u
      · exact ⟨none, by simp, rfl, rfl⟩
      · rw [Tree.childNamed?, Forest.element?_eq_find?] at hfound
        obtain ⟨m, hm, htree⟩ := n.exists_child (List.mem_of_find?_eq_some hfound)
        obtain ⟨r, hr, hwalk, hnames⟩ := exists_walk parts m
        rw [htree] at hwalk
        rw [hm, ← m.node_id, htree] at hnames
        refine ⟨r, fun k hk => (hr k hk).trans hm, hwalk, ?_⟩
        exact hnames

/-- A question about a path, put to the node along the links. -/
def ask (path : String) {β : Type} (query : Query β) : Option (Except PathFault β) :=
  (n.links.ask n.id path query).run

theorem ask_eq (path : String) {β : Type} (query : Query β) :
    n.ask path query = some (n.tree.ask path query) := by
  rw [ask, ← n.node_id]
  exact n.standing.ask path query

/-- Whether the path `p` leads to `r`, or to no node, and paths that go on behind it are answered
accordingly. -/
structure Continues (p : String) (r : Option ReachedNode) : Prop where
  inside : ∀ m ∈ r, m.toReachedDocument = n.toReachedDocument
  steps : (Path.names p).foldlM (firstNamed? n.links.view) n.id = r.map fun m => m.id
  node : n.ask p .node = some (match r with
    | some m => .ok m.id
    | none => .error .notFound)
  found : ∀ m ∈ r, ∀ (q : String) {β : Type} (query : Query β),
    n.ask (p ++ "/" ++ q) query = m.ask q query
  lost : r = none → ∀ (q : String) {β : Type} (query : Query β), n.ask (p ++ "/" ++ q) query =
    some (.error (if Path.IsMisplaced q then .syntaxError else .notFound))

/-- In a tree, paths compose; and each question to a live node has an answer, the same along the
links as in the tree. -/
theorem compose_exact (p : String) (hp : '@' ∉ p.toList) :
    (∀ (t : Tree Node) (q : String) {β : Type} (query : Query β), t.ask (p ++ "/" ++ q) query =
      match t.firstNode p with
      | .ok u => u.ask q query
      | .error _ => .error (if Path.IsMisplaced q then .syntaxError else .notFound)) ∧
    (∀ (m : ReachedNode) (path : String) {β : Type} (query : Query β),
      m.ask path query = some (m.tree.ask path query)) ∧
    ∃ r, n.Continues p r := by
  obtain ⟨r, hinside, hwalk, hnames⟩ := exists_walk (Path.parts '/' p.toList) n
  refine ⟨fun t q β query => ?_, fun m path _ query => m.ask_eq path query, r, hinside, hnames,
    ?_, ?_, ?_⟩
  · rw [Tree.ask_compose hp, Tree.firstNode_plain hp]
    rcases t.walk? (Path.parts '/' p.toList) with _ | u <;> rfl
  · rw [ask_eq]
    show some ((n.tree.firstNode p).map _) = _
    rw [Tree.firstNode_plain hp, hwalk]
    rcases r with _ | m
    · rfl
    · show some (Except.ok m.tree.node.id) = some (Except.ok m.id)
      rw [m.node_id]
  · rintro m rfl q β query
    rw [ask_eq, ask_eq, Tree.ask_compose hp, hwalk]
    rfl
  · rintro rfl q β query
    rw [ask_eq, Tree.ask_compose hp, hwalk]
    rfl

theorem compose_exact_response : '@' ∉ "/response/".toList ∧
    ∃ n m : ReachedNode, n.document = direct.foldl Document.edit .empty ∧
      (n.id = ⟨0⟩ ∧ m.id = ⟨1⟩) ∧ n.Continues "/response/" (some m) := by
  obtain ⟨c, -, hc⟩ := Reached.run direct .empty (by decide)
  let n : ReachedNode := ⟨⟨c, _, hc⟩, ⟨0⟩, _, rfl⟩
  obtain ⟨-, hask, r, hr⟩ := n.compose_exact "/response/" (by decide)
  have hnode := hr.node
  rw [hask] at hnode
  have hanswer : n.tree.ask "/response/" .node = .ok ⟨1⟩ := rfl
  rw [hanswer] at hnode
  rcases r with _ | m
  · simp at hnode
  · refine ⟨by decide, n, m, rfl, ⟨rfl, ?_⟩, hr⟩
    exact (Except.ok.inj (Option.some.inj hnode)).symm

end ReachedNode

end Treegram
