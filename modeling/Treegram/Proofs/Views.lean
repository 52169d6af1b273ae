import Treegram.Proofs.DocumentLinks
import Treegram.Proofs.Strays

/-!
# What is told of a node

A node is known by its label, its parent and its children in order (`NodeView`). A document tells
these of each node that lives, and the links tell the same to whoever follows them (`Holds.shows`).

What is told of the nodes around a spot does not depend on what stands there, but for the node
above it, whose children stand there (`Spot.view?_fill`). So a change at a spot changes what is
told of that node, of those that come and of those that go, and of no others.
-/

namespace Treegram

structure NodeView where
  label : Label
  parent : Option NodeId
  children : List NodeId

namespace Document

/-- What is told of the node `id`, if it lives. -/
def view (d : Document) (id : NodeId) : Option NodeView := do
  let t ← (d.subtree id).toOption
  let links ← (d.links id).toOption
  let children ← (d.children id).toOption
  return ⟨t.node.label, links.parent, children⟩

end Document

namespace LinkedDocument

/-- The siblings from a given one on. -/
def siblingsFrom (c : LinkedDocument) : Option NodeId → Option (List NodeId)
  | none => some []
  | some id => do
    let n ← c.get? id
    return id :: (← c |>.siblingsFrom n.links.next)
partial_fixpoint

/-- What the links tell of the node `id`, if it lives. -/
def view (c : LinkedDocument) (id : NodeId) : Option NodeView := do
  let n ← c.get? id
  return ⟨n.label, n.links.parent, ← c.siblingsFrom n.links.firstChild⟩

/-- Whether the links tell what the document does. -/
structure Shows (c : LinkedDocument) (d : Document) : Prop where
  root : c.root = d.root
  view : c.view = d.view
  contains : ∀ id, d.contains id = (d.view id).isSome
  count : c.nodes.count = d.nodeCount

end LinkedDocument

variable {f f' front kids back : Forest Node} {s : Spot} {n : Node} {id : NodeId}
  {parent : Option NodeId}

namespace Forest

/-- What is told of the node `id` of a forest that stands below `parent`. -/
def view? (id : NodeId) (parent : Option NodeId) : Forest Node → Option NodeView
  | .nil => none
  | .cons n kids rest =>
    if n.id = id then some ⟨n.label, parent, kids.tops⟩
    else (kids.view? id (some n.id)).or (rest.view? id parent)

/-- What is told of the nodes of a forest. -/
def view (f : Forest Node) (id : NodeId) : Option NodeView :=
  f.view? id none

theorem isSome_view? : ∀ {f : Forest Node} {parent : Option NodeId},
    (f.view? id parent).isSome ↔ id ∈ f.ids
  | .nil, _ => by simp [view?]
  | .cons n kids rest, parent => by
    rw [view?, ids_cons, List.mem_cons, List.mem_append]
    split
    · rename_i h
      simp [h]
    · rename_i h
      rw [Option.isSome_or, Bool.or_eq_true, isSome_view?, isSome_view?, or_iff_right (Ne.symm h)]

theorem view?_of_not_mem (h : id ∉ f.ids) : f.view? id parent = none := by
  have hiff : (f.view? id parent).isSome ↔ id ∈ f.ids := isSome_view?
  rwa [← hiff, Option.not_isSome_iff_eq_none] at h

theorem view?_append : ∀ {f : Forest Node}, (f ++ f').view? id parent =
    (f.view? id parent).or (f'.view? id parent)
  | .nil => rfl
  | .cons n kids rest => by
    rw [cons_append, view?, view?, view?_append]
    split
    · rfl
    · rw [Option.or_assoc]

theorem tops_subset : ∀ f : Forest Node, f.tops ⊆ f.ids
  | .nil => List.Subset.refl _
  | .cons n kids rest => by
    rw [tops, ids_cons]
    exact List.cons_subset_cons _ (List.subset_append_of_subset_right _ rest.tops_subset)

/-- The children of a node are nodes of the forest. -/
theorem children_subset_of_view? {v : NodeView} : ∀ {f : Forest Node} {parent : Option NodeId},
    f.view? id parent = some v → v.children ⊆ f.ids
  | .cons n kids rest, parent, h => by
    rw [view?] at h
    rw [ids_cons]
    refine List.subset_cons_of_subset _ ?_
    split at h
    · obtain rfl := Option.some.inj h
      exact List.subset_append_of_subset_left _ kids.tops_subset
    · rcases Option.or_eq_some_iff.1 h with h | ⟨-, h⟩
      · exact List.subset_append_of_subset_left _ (children_subset_of_view? h)
      · exact List.subset_append_of_subset_right _ (children_subset_of_view? h)

end Forest

namespace Spot

/-- What is told of the node `id` around a spot, where the siblings `inner` stand. -/
def view? (id : NodeId) (inner : List NodeId) : Spot → Option NodeView
  | top => none
  | under n front back above =>
    if n.id = id then some ⟨n.label, above.parent?, inner⟩
    else (front.view? id above.parent?).or
      ((back.view? id above.parent?).or (above.view? id (front.tops ++ n.id :: back.tops)))

theorem view?_parent {p : NodeId} (h : s.parent? = some p) :
    ∃ l q, ∀ inner, s.view? p inner = some ⟨l, q, inner⟩ := by
  cases s with
  | top => simp [parent?] at h
  | under n front back above =>
    obtain rfl := Option.some.inj h
    exact ⟨n.label, above.parent?, fun inner => if_pos rfl⟩

/-- Only of the node above a spot it is told what stands there. -/
theorem view?_congr (h : s.parent? ≠ some id) (inner inner' : List NodeId) :
    s.view? id inner = s.view? id inner' := by
  cases s with
  | top => rfl
  | under n front back above =>
    have hn : n.id ≠ id := fun heq => h (congrArg some heq)
    rw [view?, view?, if_neg hn, if_neg hn]

theorem parent?_mem_ids {p : NodeId} (h : s.parent? = some p) : p ∈ s.ids := by
  cases s with
  | top => simp [parent?] at h
  | under n front back above =>
    obtain rfl := Option.some.inj h
    exact List.mem_cons_self

/-- What is told of the nodes of a forest, by where they stand. -/
theorem view?_fill : ∀ {s : Spot} {f : Forest Node}, (s.fill f).ids.Nodup →
    (s.fill f).view? id none = (f.view? id s.parent?).or (s.view? id f.tops)
  | top, f, _ => by rw [fill, view?, parent?, Option.or_none]
  | under n front back above, f, h => by
    rw [fill] at h ⊢
    obtain ⟨-, hd, -⟩ := nodup_fill.1 h
    rw [Forest.ids_append, Forest.ids_cons, List.nodup_append', List.nodup_cons] at hd
    obtain ⟨-, ⟨hn, -⟩, hfront⟩ := hd
    have hbelow : id ∈ f.ids → n.id ≠ id ∧ id ∉ front.ids := fun hf =>
      ⟨fun heq => hn (heq ▸ List.mem_append_left _ hf),
        fun hmem => hfront hmem (List.mem_cons_of_mem _ (List.mem_append_left _ hf))⟩
    have habove : n.id = id → id ∉ front.ids := fun heq hmem =>
      hfront hmem (heq ▸ List.mem_cons_self)
    rw [view?_fill h, Forest.view?_append, Forest.view?, view?, Forest.tops_append, Forest.tops,
      parent?]
    by_cases hf : id ∈ f.ids
    · obtain ⟨v, hv⟩ := Option.isSome_iff_exists.1 (Forest.isSome_view?.2 hf)
      rw [if_neg (hbelow hf).1, Forest.view?_of_not_mem (hbelow hf).2, hv]
      rfl
    · rw [Forest.view?_of_not_mem hf, Option.none_or, Option.none_or]
      split
      · rename_i heq
        rw [Forest.view?_of_not_mem (habove heq)]
        rfl
      · rw [Option.or_assoc]

section Fill

variable (h : (s.fill f).ids.Nodup)

include h

theorem view?_fill_of_mem (hid : id ∈ f.ids) :
    (s.fill f).view? id none = f.view? id s.parent? := by
  rw [view?_fill h, Option.or_of_isSome (Forest.isSome_view?.2 hid)]

theorem view?_fill_of_not_mem (hid : id ∉ f.ids) :
    (s.fill f).view? id none = s.view? id f.tops := by
  rw [view?_fill h, Forest.view?_of_not_mem hid, Option.none_or]

/-- A change at a spot changes nothing that is told of a node, if it does not among the siblings and
the node is not above them. -/
theorem view?_fill_kept (h' : (s.fill f').ids.Nodup) (hp : s.parent? ≠ some id)
    (hid : f'.view? id s.parent? = f.view? id s.parent?) :
    (s.fill f').view? id none = (s.fill f).view? id none := by
  rw [view?_fill h, view?_fill h', hid, view?_congr hp]

/-- The node above a spot has as children what stands there. -/
theorem view?_fill_parent (h' : (s.fill f').ids.Nodup) {p : NodeId} (hp : s.parent? = some p) :
    ∃ v, (s.fill f).view? p none = some v ∧ v.children = f.tops ∧
      (s.fill f').view? p none = some { v with children := f'.tops } := by
  obtain ⟨l, q, hview⟩ := view?_parent hp
  have hmem := parent?_mem_ids hp
  refine ⟨⟨l, q, f.tops⟩, ?_, rfl, ?_⟩
  · rw [view?_fill_of_not_mem h ((nodup_fill.1 h).2.2 p hmem), hview]
  · rw [view?_fill_of_not_mem h' ((nodup_fill.1 h').2.2 p hmem), hview]

end Fill

theorem view?_fill_node (h : (s.fill (front ++ .cons n kids back)).ids.Nodup) :
    (s.fill (front ++ .cons n kids back)).view? n.id none =
      some ⟨n.label, s.parent?, kids.tops⟩ := by
  obtain ⟨-, hfront⟩ := not_mem_of_nodup_fill h
  rw [view?_fill_of_mem h (by simp), Forest.view?_append, Forest.view?_of_not_mem hfront,
    Forest.view?, if_pos rfl]
  rfl

end Spot

namespace LinkedDocument

variable {c : LinkedDocument} {d : Document}

theorem siblingsFrom_spec : ∀ {f : Forest Node} {parent previous : Option NodeId},
    Joined c.get? parent previous none f → c.siblingsFrom f.firstId? = some f.tops
  | .nil, _, _, _ => by
    rw [Forest.firstId?, siblingsFrom]
    rfl
  | .cons n kids rest, _, _, ⟨hn, _, hrest⟩ => by
    rw [Forest.firstId?, siblingsFrom, hn]
    simp only [Option.bind_eq_bind, Option.bind_some, Option.or_none, siblingsFrom_spec hrest]
    rfl

namespace Holds

variable (h : c.Holds d)

include h

theorem view_eq (id : NodeId) :
    c.view id = d.forest.view? id none ∧ d.view id = d.forest.view? id none := by
  by_cases hid : id ∈ d.forest.ids
  · obtain ⟨s, front, n, kids, back, rfl, hf⟩ := Spot.exists_fill hid
    obtain ⟨-, -, hn, hkids, -⟩ := h.at_node hf
    have hnode : d.forest.view? n.id none = some ⟨n.label, s.parent?, kids.tops⟩ := by
      have hd := h.nodup
      rw [hf] at hd ⊢
      exact Spot.view?_fill_node hd
    have hsubtree : d.subtree n.id = .ok ⟨n, kids⟩ := by rw [Document.subtree, h.subtree? hf]
    constructor
    · simp only [view, hn, Option.bind_eq_bind, Option.bind_some, siblingsFrom_spec hkids, hnode]
      rfl
    · rw [Document.view, h.matches.links _ _ hn, h.children hf, hsubtree, hnode]
      rfl
  · have hdead : c.get? id = none := by
      rwa [h.live, Option.not_isSome_iff_eq_none] at hid
    have hlost : d.subtree? id = none := by
      rwa [← h.contains, Document.contains, Option.not_isSome_iff_eq_none] at hid
    rw [Forest.view?_of_not_mem hid]
    constructor
    · rw [view, hdead]
      rfl
    · rw [Document.view, Document.subtree, hlost]
      rfl

theorem view : d.view = d.forest.view :=
  funext fun id => (h.view_eq id).2

/-- Linked nodes tell what the document does that they hold. -/
theorem shows : c.Shows d where
  root := h.root
  view := funext fun id => (h.view_eq id).1.trans (h.view_eq id).2.symm
  contains id := by
    rw [Bool.eq_iff_iff, h.contains, (h.view_eq id).2]
    exact Forest.isSome_view?.symm
  count := h.matches.count.symm

theorem nodeCount : d.nodeCount = d.forest.ids.length :=
  h.matches.count.trans h.count

end Holds

end LinkedDocument

end Treegram
