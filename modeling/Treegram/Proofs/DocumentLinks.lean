import Mathlib.Data.List.Chain
import Treegram.Proofs.LinkedDocuments

/-!
# What the links of a document say

Whoever follows the links of a document sees a tree (`WellLinked`): the children of a node are the
same from both ends, one path goes down to each live node, none comes back to where it started,
and a walk through all of it meets every node once.

This is read off the forest whose nodes the linked ones are (`Joined`). That only one path goes
down to a node comes from below: on the way back to the document node each next step is the link
to the parent.
-/

namespace Treegram

namespace LinkedDocument

def nextOf (c : LinkedDocument) (id : NodeId) : Option (Option NodeId) :=
  (c.get? id).map fun n => n.links.next

def previousOf (c : LinkedDocument) (id : NodeId) : Option (Option NodeId) :=
  (c.get? id).map fun n => n.links.previous

def parentOf (c : LinkedDocument) (id : NodeId) : Option (Option NodeId) :=
  (c.get? id).map fun n => n.links.parent

/-- Whether `child` is met on the walk along the children of `parent`. -/
def IsChild (c : LinkedDocument) (parent child : NodeId) : Prop :=
  ∃ n ids, c.get? parent = some n ∧ Visits c.nextOf n.links.firstChild ids ∧ child ∈ ids

/-- The nodes met from a given one on, each before its children. -/
def walk (c : LinkedDocument) : Option NodeId → Option (List NodeId)
  | none => some []
  | some id => do
    let n ← c.get? id
    let below ← c |>.walk n.links.firstChild
    let behind ← c |>.walk n.links.next
    return id :: (below ++ behind)
partial_fixpoint

/-- Whether the path goes down from the document node to the node `id`. -/
structure Descends (c : LinkedDocument) (id : NodeId) (path : List NodeId) : Prop where
  steps : path.IsChain c.IsChild
  start : path.head? = some c.root
  stop : path.getLast? = some id

/-- Whether the links of the document are those of a tree. -/
structure WellLinked (c : LinkedDocument) : Prop where
  /-- The walk along the children of a node, from the first one on, visits the same as that from
  the last one back, the other way round, and all of them have the node as parent. -/
  children : ∀ id n, c.get? id = some n → ∃ ids : List NodeId,
    Visits c.nextOf n.links.firstChild ids ∧ Visits c.previousOf n.links.lastChild ids.reverse ∧
      ∀ child ∈ ids, c.parentOf child = some (some id)
  /-- The document node has no parent, and is the only one. -/
  orphan : ∀ id, c.parentOf id = some none ↔ id = c.root
  path : ∀ id, (c.get? id).isSome → ∃! path, c.Descends id path
  acyclic : ∀ id, ¬Relation.TransGen c.IsChild id id
  /-- The walk through the whole document visits each node once. -/
  count : ∃ ids, c.walk (some c.root) = some ids ∧ ids.Nodup ∧
    (∀ id, id ∈ ids ↔ (c.get? id).isSome) ∧ c.nodes.count = ids.length

end LinkedDocument

variable {c : LinkedDocument} {d : Document} {id : NodeId}

/-! ## Walks -/

theorem Joined.visits_next : ∀ {f : Forest Node} {parent previous : Option NodeId},
    Joined c.get? parent previous none f → Visits c.nextOf f.firstId? f.tops
  | .nil, _, _, _ => rfl
  | .cons n kids rest, _, _, ⟨hn, _, hrest⟩ => by
    refine ⟨rfl, rest.firstId?, ?_, hrest.visits_next⟩
    rw [LinkedDocument.nextOf, hn, Option.map_some, Option.or_none]

/-- The walk back from the last of the siblings goes on where the first of them is linked to. -/
theorem Joined.visits_previous : ∀ {f : Forest Node} {parent previous next : Option NodeId}
    {ids : List NodeId}, Joined c.get? parent previous next f →
      Visits c.previousOf previous ids →
      Visits c.previousOf (f.lastId?.or previous) (f.tops.reverse ++ ids)
  | .nil, _, _, _, _, _, hv => hv
  | .cons n kids rest, _, previous, _, ids, ⟨hn, _, hrest⟩, hv => by
    have hv' : Visits c.previousOf (some n.id) (n.id :: ids) :=
      ⟨rfl, previous, by rw [LinkedDocument.previousOf, hn, Option.map_some], hv⟩
    have hback := hrest.visits_previous hv'
    rw [Forest.lastId?_cons, Option.or_assoc, Option.some_or, Forest.tops, List.reverse_cons,
      List.append_assoc]
    exact hback

theorem Joined.parentOf : ∀ {f : Forest Node} {parent previous next : Option NodeId},
    Joined c.get? parent previous next f → ∀ id ∈ f.tops, c.parentOf id = some parent
  | .nil, _, _, _, _, id, hid => by simp [Forest.tops] at hid
  | .cons n kids rest, _, _, _, ⟨hn, _, hrest⟩, id, hid => by
    rcases List.mem_cons.1 hid with rfl | hid
    · rw [LinkedDocument.parentOf, hn]
      rfl
    · exact hrest.parentOf id hid

theorem Joined.walk : ∀ {f : Forest Node} {parent previous : Option NodeId},
    Joined c.get? parent previous none f → c.walk f.firstId? = some f.ids
  | .nil, _, _, _ => by
    rw [Forest.firstId?, LinkedDocument.walk]
    rfl
  | .cons n kids rest, _, _, ⟨hn, hkids, hrest⟩ => by
    rw [Forest.firstId?, LinkedDocument.walk, hn]
    simp only [Option.bind_eq_bind, Option.bind_some, Option.or_none, hkids.walk, hrest.walk,
      Forest.ids_cons]
    rfl

/-- Down to each node of a forest there is a path from one of the nodes at its top. -/
theorem Joined.exists_path : ∀ {f : Forest Node} {parent previous : Option NodeId},
    Joined c.get? parent previous none f → id ∈ f.ids →
      ∃ path : List NodeId, path.IsChain c.IsChild ∧ (∃ top ∈ f.tops, path.head? = some top) ∧
        path.getLast? = some id
  | .nil, _, _, _, hid => by simp at hid
  | .cons n kids rest, _, _, ⟨hn, hkids, hrest⟩, hid => by
    rw [Forest.ids_cons, List.mem_cons, List.mem_append] at hid
    rcases hid with rfl | hid | hid
    · exact ⟨[n.id], .singleton _, ⟨n.id, List.mem_cons_self, rfl⟩, rfl⟩
    · obtain ⟨path, hsteps, ⟨top, htop, hhead⟩, hlast⟩ := hkids.exists_path hid
      refine ⟨n.id :: path, List.isChain_cons.2 ⟨fun y hy => ?_, hsteps⟩,
        ⟨n.id, List.mem_cons_self, rfl⟩, ?_⟩
      · obtain rfl := Option.some.inj (hhead.symm.trans hy)
        exact ⟨_, kids.tops, hn, hkids.visits_next, htop⟩
      · rw [List.getLast?_cons, hlast]
        rfl
    · obtain ⟨path, hsteps, ⟨top, htop, hhead⟩, hlast⟩ := hrest.exists_path hid
      exact ⟨path, hsteps, ⟨top, List.mem_cons_of_mem _ htop, hhead⟩, hlast⟩

theorem Forest.length_ids : ∀ f : Forest Node, f.ids.length = f.size
  | .nil => rfl
  | .cons n kids rest => by
    rw [ids_cons, List.length_cons, List.length_append, length_ids kids, length_ids rest, size]

theorem Forest.links?_of_not_mem : ∀ {f : Forest Node} {parent previous : Option NodeId},
    id ∉ f.ids → f.links? id parent previous = none
  | .nil, _, _, _ => rfl
  | .cons n kids rest, _, _, hid => by
    simp only [Forest.ids_cons, List.mem_cons, List.mem_append, not_or] at hid
    rw [Forest.links?, if_neg (Ne.symm hid.1), Forest.links?_of_not_mem hid.2.1,
      Forest.links?_of_not_mem hid.2.2]

theorem Joined.links? : ∀ {f : Forest Node} {parent previous : Option NodeId},
    Joined c.get? parent previous none f → id ∈ f.ids → ∀ n, c.get? id = some n →
      f.links? id parent previous = some n.links
  | .nil, _, _, _, hid, _, _ => by simp at hid
  | .cons m kids rest, _, _, ⟨hm, hkids, hrest⟩, hid, n, hn => by
    rw [Forest.links?]
    by_cases hmid : m.id = id
    · rw [← hmid, hm, Option.or_none] at hn
      rw [if_pos hmid, ← Option.some.inj hn]
    · rw [if_neg hmid]
      by_cases hk : id ∈ kids.ids
      · rw [hkids.links? hk n hn]
      · rw [Forest.ids_cons, List.mem_cons, List.mem_append] at hid
        rw [Forest.links?_of_not_mem hk]
        exact hrest.links? (by tauto) n hn

/-! ## Paths -/

/-- Going back from the end, a path is found step by step. -/
theorem eq_of_isChain {α : Type} {r : α → α → Prop} {z : α}
    (hr : ∀ a b b', r a b → r a b' → b = b') (hz : ∀ b, ¬r z b) : ∀ {l l' : List α},
      l.IsChain r → l'.IsChain r → l.head? = l'.head? → l.getLast? = some z →
        l'.getLast? = some z → l = l'
  | [], _, _, _, _, h, _ => by simp at h
  | _ :: _, [], _, _, _, _, h => by simp at h
  | [a], [a'], _, _, hhead, _, _ => by simpa using hhead
  | [a], a' :: b' :: l', _, hl', hhead, h, _ => by
    obtain rfl : a = z := by simpa using h
    obtain rfl : a = a' := by simpa using hhead
    exact absurd (List.isChain_cons_cons.1 hl').1 (hz b')
  | a :: b :: l, [a'], hl, _, hhead, _, h' => by
    obtain rfl : a' = z := by simpa using h'
    obtain rfl : a = a' := by simpa using hhead
    exact absurd (List.isChain_cons_cons.1 hl).1 (hz b)
  | a :: b :: l, a' :: b' :: l', hl, hl', hhead, h, h' => by
    obtain rfl : a = a' := by simpa using hhead
    rw [List.isChain_cons_cons] at hl hl'
    obtain rfl := hr a b b' hl.1 hl'.1
    rw [List.getLast?_cons_cons] at h h'
    rw [eq_of_isChain hr hz hl.2 hl'.2 rfl h h']

namespace LinkedDocument

/-- Each live node has its place in the tree. -/
theorem Holds.exists_place (h : c.Holds d) {m : LinkedNode} (hm : c.get? id = some m) :
    ∃ (s : Spot) (front : Forest Node) (n : Node) (kids back : Forest Node), n.id = id ∧
      d.forest = s.fill (front ++ .cons n kids back) ∧ m = ⟨n.label,
        ⟨s.parent?, front.lastId?, back.firstId?, kids.firstId?, kids.lastId?⟩⟩ ∧
      Joined c.get? (some id) none none kids := by
  have hid : id ∈ d.forest.ids := (h.live id).2 (by rw [hm]; rfl)
  obtain ⟨s, front, n, kids, back, rfl, hf⟩ := Spot.exists_fill hid
  obtain ⟨-, -, hn, hkids, -⟩ := h.at_node hf
  exact ⟨s, front, n, kids, back, rfl, hf, Option.some.inj (hm.symm.trans hn), hkids⟩

/-- A node is the child of its parent only. -/
theorem Holds.parentOf_of_isChild (h : c.Holds d) {parent child : NodeId}
    (hc : c.IsChild parent child) : c.parentOf child = some (some parent) := by
  obtain ⟨m, ids, hm, hv, hchild⟩ := hc
  obtain ⟨s, front, n, kids, back, -, -, rfl, hkids⟩ := h.exists_place hm
  rw [hv.unique hkids.visits_next] at hchild
  exact hkids.parentOf child hchild

theorem Holds.parentOf_eq_none_iff (h : c.Holds d) : c.parentOf id = some none ↔ id = c.root := by
  rw [h.root]
  constructor
  · intro hp
    by_contra hne
    obtain ⟨m, hm, hnone⟩ := Option.map_eq_some_iff.1 hp
    obtain ⟨s, front, n, kids, back, rfl, hf, rfl, -⟩ := h.exists_place hm
    obtain ⟨parent, hparent⟩ := Document.exists_parent hf hne
    rw [hparent] at hnone
    simp at hnone
  · rintro rfl
    exact Joined.parentOf h.joined _ List.mem_cons_self

theorem Holds.descends_unique (h : c.Holds d) {path path' : List NodeId}
    (hp : c.Descends id path) (hp' : c.Descends id path') : path = path' := by
  -- the other way round each step is one to the parent
  refine List.reverse_injective (eq_of_isChain (z := c.root) ?_ ?_
    (List.isChain_reverse.2 hp.steps) (List.isChain_reverse.2 hp'.steps) ?_ ?_ ?_)
  · intro child parent parent' hc hc'
    simpa [h.parentOf_of_isChild hc] using h.parentOf_of_isChild hc'
  · intro parent hc
    have hroot := h.parentOf_eq_none_iff.2 (rfl : c.root = c.root)
    rw [h.parentOf_of_isChild hc] at hroot
    simp at hroot
  · rw [List.head?_reverse, List.head?_reverse, hp.stop, hp'.stop]
  · rw [List.getLast?_reverse, hp.start]
  · rw [List.getLast?_reverse, hp'.start]

theorem Holds.exists_descends (h : c.Holds d) (hid : id ∈ d.forest.ids) :
    ∃ path, c.Descends id path := by
  obtain ⟨path, hsteps, ⟨top, htop, hhead⟩, hlast⟩ := Joined.exists_path h.joined hid
  obtain rfl := List.mem_singleton.1 htop
  exact ⟨path, hsteps, by rw [hhead, h.root]; rfl, hlast⟩

theorem Descends.snoc {parent child : NodeId} {path : List NodeId} (h : c.Descends parent path)
    (hc : c.IsChild parent child) : c.Descends child (path ++ [child]) where
  steps := by
    refine h.steps.append (.singleton _) fun x hx y hy => ?_
    obtain rfl := Option.some.inj (h.stop.symm.trans hx)
    obtain rfl := Option.some.inj hy
    exact hc
  start := by rw [List.head?_append, h.start]; rfl
  stop := List.getLast?_concat

/-- Going down makes a path longer. -/
theorem Descends.further {parent below : NodeId} {path : List NodeId}
    (h : c.Descends parent path) (hb : Relation.TransGen c.IsChild parent below) :
    ∃ path', c.Descends below path' ∧ path.length < path'.length := by
  induction hb with
  | single hc => exact ⟨_, h.snoc hc, by simp⟩
  | tail _ hc ih =>
    obtain ⟨path', hpath', hlt⟩ := ih
    exact ⟨_, hpath'.snoc hc, by rw [List.length_append]; omega⟩

theorem Holds.acyclic (h : c.Holds d) (id : NodeId) : ¬Relation.TransGen c.IsChild id id := by
  intro hcycle
  have hid : id ∈ d.forest.ids := by
    obtain ⟨child, ⟨n, ids, hn, -⟩, -⟩ := Relation.TransGen.head'_iff.1 hcycle
    rw [h.live, hn]
    rfl
  obtain ⟨path, hpath⟩ := h.exists_descends hid
  obtain ⟨path', hpath', hlt⟩ := hpath.further hcycle
  rw [h.descends_unique hpath hpath'] at hlt
  exact Nat.lt_irrefl _ hlt

/-! ## The links of a document that holds a tree -/

/-- What is kept in the slots are the nodes of the tree. -/
theorem Holds.values_perm (h : c.Holds d) :
    c.nodes.values.Perm (d.forest.ids.filterMap c.get?) := by
  have hnodup : (d.forest.ids.map NodeId.slot).Nodup := by
    refine h.nodup.map fun i j hij => ?_
    rcases i with ⟨i⟩
    rcases j with ⟨j⟩
    exact congrArg NodeId.mk hij
  have hlive : ∀ k, k ∈ d.forest.ids.map NodeId.slot ↔ (c.nodes.get? k).isSome := by
    intro k
    constructor
    · intro hk
      obtain ⟨i, hi, rfl⟩ := List.mem_map.1 hk
      exact (h.live i).1 hi
    · intro hk
      exact List.mem_map.2 ⟨⟨k⟩, (h.live ⟨k⟩).2 hk, rfl⟩
  have hperm := Arena.values_perm hnodup hlive
  rwa [List.filterMap_map] at hperm

theorem Holds.count (h : c.Holds d) : c.nodes.count = d.forest.ids.length := by
  rw [Arena.count, h.values_perm.length_eq]
  exact List.filterMap_length_eq_length.2 fun id hid => (h.live id).1 hid

theorem Holds.wellLinked (h : c.Holds d) : c.WellLinked where
  children := by
    intro id m hm
    obtain ⟨s, front, n, kids, back, -, -, rfl, hkids⟩ := h.exists_place hm
    have hback : Visits c.previousOf (kids.lastId?.or none) (kids.tops.reverse ++ []) :=
      hkids.visits_previous rfl
    rw [Option.or_none, List.append_nil] at hback
    exact ⟨kids.tops, hkids.visits_next, hback, hkids.parentOf⟩
  orphan _ := h.parentOf_eq_none_iff
  path := by
    intro id hlive
    obtain ⟨path, hpath⟩ := h.exists_descends ((h.live id).2 hlive)
    exact ⟨path, hpath, fun path' hpath' => h.descends_unique hpath' hpath⟩
  acyclic := h.acyclic
  count := by
    have hwalk : c.walk d.forest.firstId? = some d.forest.ids := Joined.walk h.joined
    refine ⟨d.forest.ids, ?_, h.nodup, h.live, h.count⟩
    rw [h.root]
    exact hwalk

/-! ## The document behind the links -/

/-- Whether the linked nodes are what a document tells about its own. -/
structure Matches (c : LinkedDocument) (d : Document) : Prop where
  root : d.root = c.root
  contains : ∀ id, d.contains id = (c.get? id).isSome
  label : ∀ id n, c.get? id = some n → ∃ t, d.subtree id = .ok t ∧ t.node = ⟨id, n.label⟩
  links : ∀ id n, c.get? id = some n → d.links id = .ok n.links
  count : d.nodeCount = c.nodes.count

theorem Holds.matches (h : c.Holds d) : c.Matches d where
  root := h.root.symm
  contains id := Bool.eq_iff_iff.2 ((h.contains id).trans (h.live id))
  label := by
    intro id m hm
    obtain ⟨s, front, n, kids, back, rfl, hf, rfl, -⟩ := h.exists_place hm
    exact ⟨⟨n, kids⟩, by rw [Document.subtree, h.subtree? hf], rfl⟩
  links := by
    intro id n hn
    have hid : id ∈ d.forest.ids := (h.live id).2 (by rw [hn]; rfl)
    have hlinks : d.tree.links? id = some n.links := Joined.links? h.joined hid n hn
    rw [Document.links, hlinks]
  count := by
    rw [h.count, Forest.length_ids, Document.nodeCount, h.strays]
    show d.tree.children.size + 1 + 0 = d.tree.children.size + 0 + 1
    omega

/-! ## Edits one after the other -/

theorem Holds.run : ∀ {es : List Edit} {c : LinkedDocument} {d : Document}, c.Holds d →
    d.acceptsAll es = true → ∃ c', c.run es = some c' ∧ c'.Holds (es.foldl Document.edit d)
  | [], c, _, h, _ => ⟨c, rfl, h⟩
  | e :: es, c, d, h, ha => by
    rw [Document.acceptsAll, Bool.and_eq_true] at ha
    obtain ⟨c₁, hc₁, h₁⟩ := h.edit ha.1
    obtain ⟨c', hc', h'⟩ := Holds.run h₁ ha.2
    refine ⟨c', ?_, h'⟩
    rw [LinkedDocument.run, hc₁]
    exact hc'

/-- Whatever is done to nodes that live, every link that is followed is there, and the links of
the document stay those of the tree that it is. -/
theorem edits_wellLinked (es : List Edit) (h : Document.empty.acceptsAll es = true) :
    ∃ c, empty.run es = some c ∧ c.WellLinked ∧ c.Matches (es.foldl Document.edit .empty) := by
  obtain ⟨c, hc, hholds⟩ := Holds.run holds_empty h
  exact ⟨c, hc, hholds.wellLinked, hholds.matches⟩

/-- The slots of a removed node and of its child go to later nodes. -/
def reuse : List Edit :=
  [.appendChild ⟨0⟩ .element "a" "", .appendChild ⟨1⟩ .data "" "x", .appendChild ⟨0⟩ .element "b" "",
    .remove ⟨1⟩, .insertBefore ⟨3⟩ .element "c" "", .appendChild ⟨3⟩ .data "" "y",
    .setName ⟨3⟩ "d"]

theorem edits_wellLinked_reuse : Document.empty.acceptsAll reuse = true ∧
    (reuse.foldl Document.edit .empty).children ⟨0⟩ = .ok [⟨2⟩, ⟨3⟩] ∧
    ∃ c, empty.run reuse = some c ∧ c.WellLinked ∧
      c.Matches (reuse.foldl Document.edit .empty) :=
  ⟨by decide, by decide, edits_wellLinked reuse (by decide)⟩

end LinkedDocument

end Treegram
