import Mathlib.Algebra.GroupWithZero.Nat
import Treegram.Proofs.LinkedTrees

/-!
# Documents as linked nodes

The linked nodes are those of a document (`Holds`), and each edit keeps it so: adding a node and
removing one both come down to a gap between siblings, whose two ends are linked anew, and which
is filled by the new node or closed over the removed one. Every node that an edit looks into lives.

What is removed is freed from a stack. As trees, what is on the stack are the removed tree at first
and then the children of what was freed, which still have the links of their places (`Standing`).
-/

namespace Treegram

/-! ## Trees of a forest -/

/-- The identities of all nodes of a tree, its own first. -/
def Tree.ids (t : Tree Node) : List NodeId :=
  t.node.id :: t.children.ids

namespace Forest

@[simp] theorem ids_single (t : Tree Node) : (single t).ids = t.ids := by
  simp [single, Tree.ids]

theorem subtree?_single (t : Tree Node) (id : NodeId) :
    (single t).subtree? id = t.find? fun n => n.id == id := by
  unfold single subtree? Tree.find?
  rw [find?]
  split
  · rfl
  · cases t.children.find? fun n => n.id == id <;> rfl

theorem ids_eq_flatMap : ∀ f : Forest Node, f.ids = f.trees.flatMap Tree.ids
  | .nil => rfl
  | .cons n kids rest => by
    rw [ids_cons, ids_eq_flatMap rest]
    rfl

theorem tops_eq_map : ∀ f : Forest Node, f.tops = f.trees.map fun t => t.node.id
  | .nil => rfl
  | .cons n kids rest => by
    rw [tops, tops_eq_map rest]
    rfl

theorem postorder_eq_flatMap : ∀ f : Forest Node, f.postorder = f.trees.flatMap Tree.postorder
  | .nil => rfl
  | .cons n kids rest => by
    rw [postorder, postorder_eq_flatMap rest, trees, List.flatMap_cons, Tree.postorder]
    simp

theorem size_eq_sum : ∀ f : Forest Node, f.size = (f.trees.map Tree.size).sum
  | .nil => rfl
  | .cons n kids rest => by
    rw [size, size_eq_sum rest, trees, List.map_cons, List.sum_cons, Tree.size]
    dsimp only
    omega

end Forest

/-- When a tree's own node goes, its children go on the stack, the last of them topmost. -/
theorem Tree.ids_pushed (t : Tree Node) (ts : List (Tree Node)) :
    ((t.children.trees.reverse ++ ts).flatMap Tree.ids).Perm
      (t.children.ids ++ ts.flatMap Tree.ids) := by
  rw [List.flatMap_append, Forest.ids_eq_flatMap]
  exact ((List.reverse_perm _).flatMap_right _).append_right _

/-- Whether the nodes of a tree are there and linked as in it, its own to whatever is around. -/
def Standing (get : NodeId → Option LinkedNode) (t : Tree Node) : Prop :=
  (∃ parent previous next, get t.node.id = some ⟨t.node.label,
    ⟨parent, previous, next, t.children.firstId?, t.children.lastId?⟩⟩) ∧
  Joined get (some t.node.id) none none t.children

theorem Standing.congr {get get' : NodeId → Option LinkedNode} {t : Tree Node}
    (h : Standing get t) (hget : ∀ id ∈ t.ids, get' id = get id) : Standing get' t := by
  obtain ⟨⟨parent, previous, next, hn⟩, hkids⟩ := h
  rw [Tree.ids, List.forall_mem_cons] at hget
  exact ⟨⟨parent, previous, next, hget.1.trans hn⟩, hkids.congr hget.2⟩

theorem Joined.standing {get : NodeId → Option LinkedNode} : ∀ {f : Forest Node}
    {parent previous next : Option NodeId}, Joined get parent previous next f →
      ∀ t ∈ f.trees, Standing get t
  | .nil, _, _, _, _ => by simp [Forest.trees]
  | .cons n kids rest, _, _, _, ⟨hn, hkids, hrest⟩ => by
    rw [Forest.trees, List.forall_mem_cons]
    exact ⟨⟨⟨_, _, _, hn⟩, hkids⟩, hrest.standing⟩

namespace Forest

section Relabel

variable (id : NodeId) (g : Label → Label)

theorem relabel_cons (n : Node) (kids rest : Forest Node) :
    relabel id g (.cons n kids rest) =
      .cons ⟨n.id, if n.id = id then g n.label else n.label⟩ (kids.relabel id g)
        (rest.relabel id g) := by
  unfold relabel
  rw [map]
  split <;> rfl

theorem firstId?_relabel : ∀ f : Forest Node, (f.relabel id g).firstId? = f.firstId?
  | .nil => rfl
  | .cons n kids rest => by rw [relabel_cons, firstId?, firstId?]

theorem lastId?_relabel : ∀ f : Forest Node, (f.relabel id g).lastId? = f.lastId?
  | .nil => rfl
  | .cons n kids rest => by rw [relabel_cons, lastId?_cons, lastId?_cons, lastId?_relabel rest]

theorem ids_relabel : ∀ f : Forest Node, (f.relabel id g).ids = f.ids
  | .nil => rfl
  | .cons n kids rest => by
    rw [relabel_cons, ids_cons, ids_cons, ids_relabel kids, ids_relabel rest]

end Relabel

end Forest

/-- Labels are changed without a change to the links. -/
theorem Joined.relabel {get get' : NodeId → Option LinkedNode} {id : NodeId} {g : Label → Label}
    (hget : ∀ j x, get j = some x →
      get' j = some (if j = id then { x with label := g x.label } else x)) :
    ∀ {f : Forest Node} {parent previous next : Option NodeId},
      Joined get parent previous next f → Joined get' parent previous next (f.relabel id g)
  | .nil, _, _, _, _ => trivial
  | .cons n kids rest, _, _, _, ⟨hn, hkids, hrest⟩ => by
    rw [Forest.relabel_cons]
    refine ⟨?_, Joined.relabel hget hkids, Joined.relabel hget hrest⟩
    rw [hget _ _ hn, Forest.firstId?_relabel, Forest.firstId?_relabel, Forest.lastId?_relabel]
    dsimp only
    split <;> rfl

namespace Document

/-- The tree of a document as a forest. -/
def forest (d : Document) : Forest Node :=
  .single d.tree

theorem subtree?_forest (d : Document) (id : NodeId) :
    d.forest.subtree? id = d.tree.find? fun n => n.id == id :=
  Forest.subtree?_single d.tree id

/-- The node that is added when a document gets the next one. -/
def fresh (d : Document) (l : Label) : Node :=
  ⟨⟨d.slots.next⟩, l⟩

theorem graft_of_contains {d : Document} {parent : NodeId} (h : d.contains parent = true)
    (hs : d.strays = []) (f : Forest Label) :
    ∃ d', d.graft parent f = .ok d' ∧ d'.strays = [] ∧ d'.root = d.root ∧
      d'.slots = (number d.slots f).2 ∧
      d'.forest = Forest.graft parent (number d.slots f).1 d.forest := by
  refine ⟨_, if_pos h, ?_, rfl, rfl, ?_⟩
  · rw [hs]
    rfl
  · unfold forest Forest.single Tree.graft
    rw [Forest.graft]
    split <;> rfl

theorem appendChild_of_contains {d : Document} {parent : NodeId} (h : d.contains parent = true)
    (hs : d.strays = []) (l : Label) :
    let d' := (d.appendChild parent l).2
    d'.strays = [] ∧ d'.root = d.root ∧ d'.slots = d.slots.advance ∧
      d'.forest = Forest.graft parent (.cons (d.fresh l) .nil .nil) d.forest := by
  obtain ⟨d', hd', hgrafted⟩ := graft_of_contains h hs (.cons l .nil .nil)
  unfold appendChild
  rw [hd']
  exact hgrafted

theorem insertBefore_of_contains {d : Document} {before : NodeId} (h : d.contains before = true)
    (hs : d.strays = []) (hroot : before ≠ d.root) (l : Label) :
    ∃ d', d.insertBefore before l = .ok (d', ⟨d.slots.next⟩) ∧ d'.strays = [] ∧
      d'.root = d.root ∧ d'.slots = d.slots.advance ∧
      d'.forest = Forest.insertBefore before (.cons (d.fresh l) .nil .nil) d.forest := by
  have htop : d.isTop before = false := by
    unfold isTop
    rw [hs, List.any_nil, Bool.or_false, beq_eq_false_iff_ne]
    exact Ne.symm hroot
  unfold insertBefore
  rw [if_neg (by rw [htop]; simp), if_pos h, hs]
  refine ⟨_, rfl, rfl, rfl, rfl, ?_⟩
  have hne : d.tree.node.id ≠ before := Ne.symm hroot
  unfold forest Forest.single
  rw [Forest.insertBefore, if_neg hne]
  rfl

theorem remove_of_subtree? {d : Document} {id : NodeId} {t : Tree Node}
    (h : d.subtree? id = some t) (hs : d.strays = []) (hroot : id ≠ d.root) :
    ∃ d', d.remove id = .ok d' ∧ d'.strays = [] ∧ d'.root = d.root ∧
      d'.slots = d.slots.vacate (t.postorder.map fun n => n.id.slot) ∧
      d'.forest = d.forest.erase id := by
  unfold remove
  rw [if_neg (Ne.symm hroot), hs, List.findSome?_nil, h]
  refine ⟨_, rfl, rfl, rfl, rfl, ?_⟩
  have hne : d.tree.node.id ≠ id := Ne.symm hroot
  unfold forest Forest.single
  rw [Forest.erase, if_neg hne]
  rfl

/-- Only the document node stands at the top. -/
theorem exists_parent {d : Document} {s : Spot} {n : Node} {front kids back : Forest Node}
    (hf : d.forest = s.fill (front ++ .cons n kids back)) (hn : n.id ≠ d.root) :
    ∃ parent, s.parent? = some parent := by
  cases s with
  | under m before behind above => exact ⟨m.id, rfl⟩
  | top =>
    rcases front with _ | ⟨m, below, front⟩
    · obtain ⟨rfl, -⟩ := Forest.cons.inj hf
      exact absurd rfl hn
    · obtain ⟨-, -, hnil⟩ := Forest.cons.inj hf
      have hids : Forest.ids .nil = (front ++ .cons n kids back).ids := congrArg Forest.ids hnil
      rw [Forest.ids_append] at hids
      simp at hids

end Document

namespace LinkedDocument

variable {d : LinkedDocument}

/-! ## Freeing nodes -/

theorem pushFrom_spec : ∀ {f : Forest Node} {parent previous : Option NodeId}
    (stack : List NodeId), Joined d.get? parent previous none f →
      d.pushFrom stack f.firstId? = some (f.tops.reverse ++ stack)
  | .nil, _, _, stack, _ => by
    rw [Forest.firstId?, pushFrom]
    rfl
  | .cons n kids rest, _, _, stack, ⟨hn, _, hrest⟩ => by
    rw [Forest.firstId?, pushFrom, hn]
    simp only [Option.bind_eq_bind, Option.bind_some, Option.or_none]
    rw [pushFrom_spec (n.id :: stack) hrest, Forest.tops, List.reverse_cons, List.append_assoc]
    rfl

/-- The nodes of trees are freed, each tree's own node first, and then what is below it from the
last to the first. -/
theorem free_spec : ∀ (ts : List (Tree Node)) {d : LinkedDocument},
    (∀ t ∈ ts, Standing d.get? t) → (ts.flatMap Tree.ids).Nodup →
      ∃ d', d.free (ts.map fun t => t.node.id) = some d' ∧ d'.root = d.root ∧
        d'.nodes.slots = d.nodes.slots.vacate
          ((ts.reverse.flatMap Tree.postorder).map fun n => n.id.slot) ∧
        ∀ id, d'.get? id = if id ∈ ts.flatMap Tree.ids then none else d.get? id
  | [], d, _, _ => by
    refine ⟨d, ?_, rfl, rfl, fun id => by simp⟩
    rw [List.map_nil, free]
  | t :: ts, d, hs, hd => by
    rw [List.forall_mem_cons] at hs
    obtain ⟨⟨⟨parent, previous, next, hn⟩, hkids⟩, hts⟩ := hs
    rw [List.flatMap_cons, Tree.ids, List.cons_append, List.nodup_cons, List.mem_append, not_or,
      List.nodup_append'] at hd
    obtain ⟨⟨hnkids, hnts⟩, hdkids, hdts, hdisj⟩ := hd
    obtain ⟨a, ha, hslots, hget⟩ := remove?_of_get? hn
    -- only the slot of the topmost tree's own node is vacated, so all other trees still stand
    let d₁ : LinkedDocument := { d with nodes := a }
    have hother : ∀ id ≠ t.node.id, d₁.get? id = d.get? id := fun id hid => by
      rw [hget, if_neg hid]
    have hkids₁ : Joined d₁.get? (some t.node.id) none none t.children := by
      refine hkids.congr fun id hid => hother id ?_
      rintro rfl
      exact hnkids hid
    have hts₁ : ∀ u ∈ ts, Standing d₁.get? u := by
      intro u hu
      refine (hts u hu).congr fun id hid => hother id ?_
      rintro rfl
      exact hnts (List.mem_flatMap_of_mem hu hid)
    have hstanding : ∀ u ∈ t.children.trees.reverse ++ ts, Standing d₁.get? u := by
      intro u hu
      rcases List.mem_append.1 hu with hu | hu
      · exact hkids₁.standing u (List.mem_reverse.1 hu)
      · exact hts₁ u hu
    obtain ⟨d', hd', hroot, hslots', hget'⟩ := free_spec (t.children.trees.reverse ++ ts)
      hstanding ((t.ids_pushed ts).nodup_iff.2 (List.nodup_append'.2 ⟨hdkids, hdts, hdisj⟩))
    refine ⟨d', ?_, hroot, ?_, fun id => ?_⟩
    · rw [List.map_cons, free, ha]
      simp only [Option.bind_eq_bind, Option.bind_some]
      rw [pushFrom_spec _ hkids₁, Option.bind_some, ← hd', List.map_append, List.map_reverse,
        Forest.tops_eq_map]
    · rw [hslots', hslots, Slots.vacate, Slots.vacate, Slots.vacate, List.reverse_cons,
        List.reverse_append, List.reverse_reverse, List.flatMap_append, List.flatMap_append,
        ← Forest.postorder_eq_flatMap]
      simp [Tree.postorder]
    · rw [hget', hget, List.flatMap_cons, Tree.ids]
      simp only [(t.ids_pushed ts).mem_iff, List.cons_append, List.mem_cons, List.mem_append]
      by_cases hid : id = t.node.id <;> simp [hid]
-- each step takes one node from the trees on the stack
termination_by ts => (ts.map Tree.size).sum
decreasing_by
  rw [List.map_append, List.sum_append, List.map_reverse, List.sum_reverse, ← Forest.size_eq_sum,
    List.map_cons, List.sum_cons, Tree.size]
  omega

/-! ## The document behind the links -/

/-- Whether the linked document is `d`, which has no strays. -/
structure Holds (c : LinkedDocument) (d : Document) : Prop where
  strays : d.strays = []
  root : c.root = d.root
  slots : c.nodes.slots = d.slots
  nodup : d.forest.ids.Nodup
  live : ∀ id, id ∈ d.forest.ids ↔ (c.get? id).isSome
  joined : Joined c.get? none none none d.forest

variable {c : LinkedDocument} {d : Document} {id : NodeId}

theorem holds_empty : empty.Holds .empty where
  strays := rfl
  root := rfl
  slots := rfl
  nodup := List.nodup_singleton _
  live := by
    rintro ⟨k⟩
    have hget : empty.get? ⟨k⟩ = if k = 0 then some ⟨.document, .alone⟩ else none := by
      show (Arena.empty.insert _).get? k = _
      rw [Arena.get?_insert, Arena.get?_empty]
      rfl
    rw [hget, show Document.empty.forest.ids = [⟨0⟩] from rfl, List.mem_singleton,
      NodeId.mk.injEq]
    split <;> simp_all
  joined := by
    refine ⟨?_, trivial, trivial⟩
    show (Arena.empty.insert _).get? 0 = _
    rw [Arena.get?_insert]
    rfl

/-- A node of the document has the links of its place, and is linked to from all sides. -/
theorem Holds.at_node (h : c.Holds d) {s : Spot} {n : Node} {front kids back : Forest Node}
    (hf : d.forest = s.fill (front ++ .cons n kids back)) :
    s.Around c.get? (front.firstId?.or (some n.id)) (back.lastId?.or (some n.id)) ∧
      Joined c.get? s.parent? none (some n.id) front ∧
      c.get? n.id = some ⟨n.label,
        ⟨s.parent?, front.lastId?, back.firstId?, kids.firstId?, kids.lastId?⟩⟩ ∧
      Joined c.get? (some n.id) none none kids ∧
      Joined c.get? s.parent? (some n.id) none back := by
  have hjoined := h.joined
  rw [hf] at hjoined
  exact hjoined.at_node

theorem Holds.subtree? (h : c.Holds d) {s : Spot} {n : Node} {front kids back : Forest Node}
    (hf : d.forest = s.fill (front ++ .cons n kids back)) : d.subtree? n.id = some ⟨n, kids⟩ := by
  have hd := h.nodup
  rw [hf] at hd
  have hfind := Spot.subtree?_fill hd
  rw [← hf, Document.subtree?_forest] at hfind
  unfold Document.subtree?
  rw [hfind]

theorem Holds.children (h : c.Holds d) {s : Spot} {n : Node} {front kids back : Forest Node}
    (hf : d.forest = s.fill (front ++ .cons n kids back)) :
    d.children n.id = .ok kids.tops := by
  unfold Document.children Document.subtree
  rw [h.subtree? hf, Forest.tops_eq_map]
  rfl

theorem Holds.contains (h : c.Holds d) (id : NodeId) :
    d.contains id = true ↔ id ∈ d.forest.ids := by
  unfold Document.contains
  constructor
  · intro hlive
    by_contra hid
    have hnone := Forest.subtree?_of_not_mem hid
    rw [Document.subtree?_forest] at hnone
    unfold Document.subtree? at hlive
    rw [hnone, h.strays] at hlive
    simp at hlive
  · intro hid
    obtain ⟨s, front, n, kids, back, rfl, hf⟩ := Spot.exists_fill hid
    rw [h.subtree? hf]
    rfl

/-! ## Labels -/

theorem Holds.relabel (h : c.Holds d) (hid : id ∈ d.forest.ids) (g : Label → Label) :
    ∃ c' d', c.relabel id g = some c' ∧ d.relabel id g = .ok d' ∧ c'.Holds d' := by
  obtain ⟨x, hx⟩ := Option.isSome_iff_exists.1 ((h.live id).1 hid)
  obtain ⟨c', hc', hr, hget⟩ := modify?_of_get? hx fun n => { n with label := g n.label }
  have hd' : d.relabel id g = .ok { d with tree := d.tree.relabel id g } := by
    unfold Document.relabel
    rw [if_pos ((h.contains _).2 hid), h.strays]
    rfl
  have hforest : ({ d with tree := d.tree.relabel id g } : Document).forest =
      d.forest.relabel id g := rfl
  have hroot : (d.tree.relabel id g).node.id = d.tree.node.id := by
    unfold Tree.relabel
    dsimp only
    split <;> rfl
  refine ⟨c', _, hc', hd', h.strays, ?_, ?_, ?_, fun j => ?_, ?_⟩
  · rw [hr.root, h.root]
    exact hroot.symm
  · rw [hr.slots, h.slots]
  · rw [hforest, Forest.ids_relabel]
    exact h.nodup
  · rw [hforest, Forest.ids_relabel, h.live, hr.live]
  · rw [hforest]
    refine Joined.relabel (fun j y hy => ?_) h.joined
    rw [hget]
    split
    · rename_i hj
      rw [hj, hx, Option.some.injEq] at hy
      rw [hy]
    · exact hy

/-! ## Adding nodes -/

/-- A new node is there, with the links that are given to it, and stands beside the others. -/
theorem create_spec (c : LinkedDocument) (l : Label) (g : Links → Links) :
    ∃ c', (c.create l).relink c.nextId g = some c' ∧ c'.root = c.root ∧
      c'.nodes.slots = c.nodes.slots.advance ∧ c'.get? c.nextId = some ⟨l, g .alone⟩ ∧
      (∀ id ≠ c.nextId, c'.get? id = c.get? id) ∧
      ∀ id ≠ c.nextId, (c.create l).get? id = c.get? id := by
  have hget : ∀ id, (c.create l).get? id =
      if id = c.nextId then some ⟨l, .alone⟩ else c.get? id := by
    rintro ⟨k⟩
    show (c.nodes.insert _).get? k = _
    rw [Arena.get?_insert]
    simp only [nextId, NodeId.mk.injEq]
    rfl
  have hnew : (c.create l).get? c.nextId = some ⟨l, .alone⟩ := by
    rw [hget, if_pos rfl]
  obtain ⟨c', hc', hr, hself, hother⟩ := relink_of_get? hnew g
  refine ⟨c', hc', hr.root, hr.slots, hself, fun id hid => ?_, fun id hid => ?_⟩
  · rw [hother id hid, hget, if_neg hid]
  · rw [hget, if_neg hid]

theorem get?_nextId (c : LinkedDocument) : c.get? c.nextId = none :=
  c.nodes.get?_next

theorem Holds.nextId_not_mem (h : c.Holds d) : c.nextId ∉ d.forest.ids := by
  rw [h.live, get?_nextId]
  simp

theorem Holds.nextId (h : c.Holds d) : c.nextId = ⟨d.slots.next⟩ := by
  rw [LinkedDocument.nextId, ← h.slots]
  rfl

theorem ids_insert (s : Spot) (n : Node) (front back : Forest Node) :
    (s.fill (front ++ .cons n .nil back)).ids.Perm (n.id :: (s.fill (front ++ back)).ids) := by
  refine (s.ids_fill _).trans (.trans ?_ ((s.ids_fill (front ++ back)).symm.cons n.id))
  refine List.perm_iff_count.2 fun id => ?_
  simp only [Forest.ids_append, Forest.ids_cons, Forest.ids_nil, List.count_append,
    List.count_cons, List.nil_append]
  omega

/-- A document that gets a node between others, all of whose links have been put right. -/
theorem Holds.insert (h : c.Holds d) {s : Spot} {n : Node} {front back : Forest Node}
    (hf : d.forest = s.fill (front ++ back)) (hn : n.id = c.nextId) {c₁ c' : LinkedDocument}
    (hroot : c₁.root = c.root) (hslots : c₁.nodes.slots = c.nodes.slots.advance)
    (hself : c₁.get? n.id =
      some ⟨n.label, ⟨s.parent?, front.lastId?, back.firstId?, none, none⟩⟩)
    (hother : ∀ id ≠ n.id, c₁.get? id = c.get? id)
    (hspan : c₁.Spanned c' s front back (some n.id) (some n.id)) {d' : Document}
    (hstrays : d'.strays = []) (hdroot : d'.root = d.root) (hdslots : d'.slots = d.slots.advance)
    (hforest : d'.forest = s.fill (front ++ .cons n .nil back)) : c'.Holds d' := by
  have hnot : n.id ∉ d.forest.ids := by
    rw [hn]
    exact h.nextId_not_mem
  have hperm : d'.forest.ids.Perm (n.id :: d.forest.ids) := by
    rw [hforest, hf]
    exact ids_insert s n front back
  have hself' : c'.get? n.id = c₁.get? n.id := by
    rw [hf, Spot.mem_ids_fill, not_or] at hnot
    exact hspan.other n.id hnot.1 hnot.2
  refine ⟨hstrays, ?_, ?_, ?_, fun id => ?_, ?_⟩
  · rw [hspan.relinked.root, hroot, h.root, hdroot]
  · rw [hspan.relinked.slots, hslots, h.slots, hdslots]
  · exact hperm.nodup_iff.2 (List.nodup_cons.2 ⟨hnot, h.nodup⟩)
  · rw [hperm.mem_iff, List.mem_cons, hspan.relinked.live]
    by_cases hid : id = n.id
    · rw [hid, hself]
      simp
    · rw [hother id hid, ← h.live]
      simp [hid]
  · rw [hforest]
    exact hspan.joined_single (hself'.trans hself)

/-- A new node leaves the links of the others as they are. -/
theorem Holds.gap (h : c.Holds d) {s : Spot} {front back : Forest Node}
    (hf : d.forest = s.fill (front ++ back)) {c₁ : LinkedDocument}
    (hother : ∀ id ≠ c.nextId, c₁.get? id = c.get? id) :
    s.Around c₁.get? (front.firstId?.or back.firstId?) (back.lastId?.or front.lastId?) ∧
      Joined c₁.get? s.parent? none back.firstId? front ∧
      Joined c₁.get? s.parent? front.lastId? none back ∧ Apart s (front ++ back) := by
  have hjoined : Joined c₁.get? none none none (s.fill (front ++ back)) := by
    rw [← hf]
    refine h.joined.congr fun id hid => hother id ?_
    rintro rfl
    exact h.nextId_not_mem hid
  have hd := h.nodup
  rw [hf, Spot.nodup_fill] at hd
  obtain ⟨haround, hahead, hbehind⟩ := hjoined.gap
  exact ⟨haround, hahead, hbehind, hd.1, hd.2.1, hd.2.2⟩

/-- Trees that are grafted on stand behind the children that were there. -/
theorem Holds.graft (h : c.Holds d) {s : Spot} {n : Node} {front kids back : Forest Node}
    (hf : d.forest = s.fill (front ++ .cons n kids back)) (f : Forest Label) :
    ∃ d', d.graft n.id f = .ok d' ∧ d'.strays = [] ∧ d'.slots = (Document.number d.slots f).2 ∧
      d'.forest = s.fill (front ++ .cons n (kids ++ (Document.number d.slots f).1) back) := by
  have hp : d.contains n.id = true := by rw [Document.contains, h.subtree? hf]; rfl
  obtain ⟨d', hd', hstrays, -, hslots, hforest⟩ := Document.graft_of_contains hp h.strays f
  have hd := h.nodup
  rw [hf] at hd
  refine ⟨d', hd', hstrays, hslots, ?_⟩
  rw [hforest, Forest.graft_eq_edit, hf, Spot.edit_fill hd]

/-- A new last child stands behind the others. -/
theorem Holds.forest_appendChild (h : c.Holds d) {s : Spot} {n : Node}
    {front kids back : Forest Node} (hf : d.forest = s.fill (front ++ .cons n kids back))
    (l : Label) : (d.appendChild n.id l).2.forest =
      s.fill (front ++ .cons n (kids ++ .cons ⟨c.nextId, l⟩ .nil .nil) back) := by
  obtain ⟨d', hd', -, -, hforest⟩ := h.graft hf (.cons l .nil .nil)
  rw [Document.appendChild, hd', h.nextId]
  exact hforest

/-- A new node stands before the one it is added before. -/
theorem Holds.forest_insertBefore (h : c.Holds d) {s : Spot} {n : Node}
    {front kids back : Forest Node} (hf : d.forest = s.fill (front ++ .cons n kids back))
    (hroot : n.id ≠ d.root) {l : Label} {p : Document × NodeId}
    (hp : d.insertBefore n.id l = .ok p) :
    p.1.forest = s.fill (front ++ .cons ⟨c.nextId, l⟩ .nil (.cons n kids back)) := by
  have hd := h.nodup
  have hb : d.contains n.id = true := by rw [Document.contains, h.subtree? hf]; rfl
  obtain ⟨d', hd', -, -, -, hforest⟩ := Document.insertBefore_of_contains hb h.strays hroot l
  obtain rfl := Except.ok.inj (hp.symm.trans hd')
  rw [hf] at hd
  rw [hforest, Forest.insertBefore_eq_edit, hf, Spot.edit_fill hd, Document.fresh, h.nextId]
  rfl

theorem Holds.appendChild (h : c.Holds d) {parent : NodeId} (hp : parent ∈ d.forest.ids)
    (l : Label) : ∃ c', c.appendChild parent l = some (c.nextId, c') ∧
      c'.Holds (d.appendChild parent l).2 := by
  obtain ⟨hstrays, hroot', hslots', -⟩ :=
    Document.appendChild_of_contains ((h.contains _).2 hp) h.strays l
  have hne : parent ≠ c.nextId := by
    rintro rfl
    exact h.nextId_not_mem hp
  obtain ⟨s, front, n, kids, back, rfl, hf⟩ := Spot.exists_fill hp
  obtain ⟨-, -, hn, -⟩ := h.at_node hf
  -- the gap is behind the last child
  let s' : Spot := .under n front back s
  have hf' : d.forest = s'.fill (kids ++ .nil) := by
    rw [hf, Forest.append_nil]
    rfl
  obtain ⟨c₁, hc₁, hroot, hslots, hself, hother, hcreate⟩ := create_spec c l fun l =>
    { l with parent := some n.id, previous := kids.lastId? }
  obtain ⟨haround, hahead, hbehind, hapart⟩ := h.gap hf' hother
  obtain ⟨c₂, c', hc₂, hc', hspan⟩ :=
    span_forward haround hahead hbehind hapart (some c.nextId) (some c.nextId)
  refine ⟨c', ?_, h.insert (n := ⟨c.nextId, l⟩) hf' rfl hroot hslots hself hother hspan hstrays
    hroot' hslots' (h.forest_appendChild hf l)⟩
  · have hn' := (hcreate n.id hne).trans hn
    unfold LinkedDocument.appendChild
    simp only [Option.bind_eq_bind, hn', Option.bind_some, hc₁]
    rw [show c₁.setNext (some n.id) kids.lastId? (some c.nextId) = some c₂ from hc₂, Option.bind_some,
      show c₂.setPrevious (some n.id) none (some c.nextId) = some c' from hc']
    rfl

theorem Holds.insertBefore (h : c.Holds d) {before : NodeId} (hb : before ∈ d.forest.ids)
    (hroot : before ≠ d.root) (l : Label) :
    ∃ c' d', c.insertBefore before l = some (c.nextId, c') ∧
      d.insertBefore before l = .ok (d', c.nextId) ∧ c'.Holds d' := by
  obtain ⟨d', hd', hstrays, hroot', hslots', -⟩ :=
    Document.insertBefore_of_contains ((h.contains _).2 hb) h.strays hroot l
  have hne : before ≠ c.nextId := by
    rintro rfl
    exact h.nextId_not_mem hb
  obtain ⟨s, front, n, kids, back, rfl, hf⟩ := Spot.exists_fill hb
  obtain ⟨-, -, hn, -⟩ := h.at_node hf
  obtain ⟨parent, hparent⟩ := Document.exists_parent hf hroot
  rw [hparent] at hn
  obtain ⟨c₁, hc₁, hcroot, hslots, hself, hother, hcreate⟩ := create_spec c l fun l =>
    { l with parent := some parent, previous := front.lastId?, next := some n.id }
  obtain ⟨haround, hahead, hbehind, hapart⟩ := h.gap hf hother
  obtain ⟨c₂, c', hc₂, hc', hspan⟩ :=
    span_backward haround hahead hbehind hapart (some c.nextId) (some c.nextId)
  refine ⟨c', d', ?_, by rw [hd', h.nextId], h.insert (n := ⟨c.nextId, l⟩) hf rfl hcroot hslots
    ?_ hother hspan hstrays hroot' hslots' (h.forest_insertBefore hf hroot hd')⟩
  · have hn' := (hcreate n.id hne).trans hn
    rw [hparent] at hc₂ hc'
    unfold LinkedDocument.insertBefore
    simp only [Option.bind_eq_bind, hn, hn', Option.bind_some, hc₁]
    rw [show c₁.setPrevious (some parent) (some n.id) (some c.nextId) = some c₂ from hc₂,
      Option.bind_some, hc']
    rfl
  · rw [hparent]
    exact hself

/-! ## Removing nodes -/

theorem ids_erase (s : Spot) (n : Node) (front kids back : Forest Node) :
    (s.fill (front ++ .cons n kids back)).ids.Perm
      (Tree.ids ⟨n, kids⟩ ++ (s.fill (front ++ back)).ids) := by
  refine (s.ids_fill _).trans (.trans ?_ ((s.ids_fill (front ++ back)).symm.append_left _))
  refine List.perm_iff_count.2 fun id => ?_
  simp only [Forest.ids_append, Forest.ids_cons, Tree.ids, List.count_append, List.count_cons]
  omega

/-- A node is taken out from between its siblings, and what is below it stays there. -/
theorem Holds.unlink (h : c.Holds d) {s : Spot} {n : Node} {front kids back : Forest Node}
    (hf : d.forest = s.fill (front ++ .cons n kids back)) :
    ∃ c₁ c₂, c.setNext s.parent? front.lastId? back.firstId? = some c₁ ∧
      c₁.setPrevious s.parent? back.firstId? front.lastId? = some c₂ ∧
      c.Spanned c₂ s front back back.firstId? front.lastId? ∧ Standing c₂.get? ⟨n, kids⟩ := by
  obtain ⟨haround, hahead, hn, hkids, hbehind⟩ := h.at_node hf
  have hd := h.nodup
  rw [hf, (ids_erase s n front kids back).nodup_iff, List.nodup_append', Spot.nodup_fill] at hd
  obtain ⟨-, ⟨hds, hdfb, hdsfb⟩, hdisj⟩ := hd
  obtain ⟨c₁, c₂, hc₁, hc₂, hspan⟩ :=
    span_forward haround hahead hbehind ⟨hds, hdfb, hdsfb⟩ back.firstId? front.lastId?
  have htree : Standing c.get? ⟨n, kids⟩ := ⟨⟨_, _, _, hn⟩, hkids⟩
  refine ⟨c₁, c₂, hc₁, hc₂, hspan, htree.congr fun id hid => ?_⟩
  have hnot : id ∉ (s.fill (front ++ back)).ids := hdisj hid
  rw [Spot.mem_ids_fill, not_or] at hnot
  exact hspan.other id hnot.1 hnot.2

theorem Holds.remove (h : c.Holds d) {s : Spot} {n : Node} {front kids back : Forest Node}
    (hf : d.forest = s.fill (front ++ .cons n kids back)) (hroot : n.id ≠ d.root) :
    ∃ c' d', c.remove n.id = some c' ∧ d.remove n.id = .ok d' ∧ c'.Holds d' ∧
      d'.forest = s.fill (front ++ back) := by
  obtain ⟨d', hd', hstrays, hroot', hslots', hforest⟩ :=
    Document.remove_of_subtree? (h.subtree? hf) h.strays hroot
  obtain ⟨-, -, hn, -⟩ := h.at_node hf
  have hd := h.nodup
  rw [hf] at hd
  rw [Forest.erase_eq_edit, hf, Spot.edit_fill hd] at hforest
  have hperm := ids_erase s n front kids back
  rw [← hforest] at hperm
  obtain ⟨hdtree, hdrest, hdisj⟩ := List.nodup_append'.1 (hperm.nodup_iff.1 hd)
  obtain ⟨c₁, c₂, hc₁, hc₂, hspan, hstanding⟩ := h.unlink hf
  -- the stack holds the removed tree only
  obtain ⟨c', hc', hcroot, hcslots, hget⟩ := free_spec [⟨n, kids⟩]
    (List.forall_mem_singleton.2 hstanding) (by rwa [List.flatMap_singleton])
  rw [List.flatMap_singleton] at hget
  rw [List.reverse_singleton, List.flatMap_singleton] at hcslots
  refine ⟨c', d', ?_, hd', ⟨hstrays, ?_, ?_, hdrest, fun id => ?_, ?_⟩, hforest⟩
  · have hcne : n.id ≠ c.root := by rwa [h.root]
    unfold LinkedDocument.remove
    rw [if_neg hcne]
    simp only [Option.bind_eq_bind, hn, Option.bind_some, hc₁, hc₂]
    exact hc'
  · rw [hcroot, hspan.relinked.root, h.root, hroot']
  · rw [hcslots, hspan.relinked.slots, h.slots, hslots']
  · have hlive := h.live id
    rw [hf, hperm.mem_iff, List.mem_append, ← hspan.relinked.live] at hlive
    rw [hget]
    by_cases hid : id ∈ Tree.ids ⟨n, kids⟩
    · rw [if_pos hid]
      simpa using hdisj hid
    · rw [if_neg hid, ← hlive]
      simp [hid]
  · have hclosed := hspan.joined
    rw [← hforest] at hclosed
    refine hclosed.congr fun id hid => ?_
    rw [hget, if_neg fun ht => hdisj ht hid]

/-- A child is no document node. -/
theorem Holds.child_ne_root (h : c.Holds d) {s : Spot} {n m : Node}
    {front below rest back : Forest Node}
    (hf : d.forest = s.fill (front ++ .cons n (.cons m below rest) back)) : m.id ≠ d.root := by
  intro heq
  have hroot : c.get? d.root = some ⟨d.tree.node.label,
      ⟨none, none, none, d.tree.children.firstId?, d.tree.children.lastId?⟩⟩ := h.joined.1
  obtain ⟨-, -, -, ⟨hm, -⟩, -⟩ := h.at_node hf
  rw [heq, hroot] at hm
  simp at hm

theorem Holds.removeAll : ∀ (kids : Forest Node) {c : LinkedDocument} {d : Document} {s : Spot}
    {n : Node} {front back : Forest Node}, c.Holds d →
      d.forest = s.fill (front ++ .cons n kids back) →
      ∃ c', c.removeChildren n.id = some c' ∧ c'.Holds (d.removeAll kids.tops) ∧
        (d.removeAll kids.tops).forest = s.fill (front ++ .cons n .nil back)
  | .nil, c, d, s, n, front, back, h, hf => by
    obtain ⟨-, -, hn, -⟩ := h.at_node hf
    refine ⟨c, ?_, h, hf⟩
    rw [LinkedDocument.removeChildren, hn]
    rfl
  | .cons m below rest, c, d, s, n, front, back, h, hf => by
    obtain ⟨-, -, hn, -⟩ := h.at_node hf
    have hf' : d.forest = (Spot.under n front back s).fill (.nil ++ .cons m below rest) := hf
    obtain ⟨c₁, d₁, hc₁, hd₁, h₁, hf₁⟩ := h.remove hf' (h.child_ne_root hf)
    obtain ⟨c', hc', h'⟩ := Holds.removeAll rest h₁ hf₁
    refine ⟨c', ?_, ?_⟩
    · rw [LinkedDocument.removeChildren, hn]
      simp only [Option.bind_eq_bind, Option.bind_some, Forest.firstId?, hc₁]
      exact hc'
    · rw [Forest.tops, Document.removeAll, hd₁]
      exact h'

theorem Holds.removeChildren (h : c.Holds d) {s : Spot} {n : Node}
    {front kids back : Forest Node} (hf : d.forest = s.fill (front ++ .cons n kids back)) :
    ∃ c', c.removeChildren n.id = some c' ∧ c'.Holds (d.removeChildren n.id).2 ∧
      (d.removeChildren n.id).2.forest = s.fill (front ++ .cons n .nil back) := by
  obtain ⟨c', hc', h'⟩ := h.removeAll kids hf
  refine ⟨c', hc', ?_⟩
  unfold Document.removeChildren
  rw [h.children hf]
  exact h'

/-! ## Edits -/

theorem Holds.edit_relabel (h : c.Holds d) (hid : id ∈ d.forest.ids) {e : Edit}
    (g : Label → Label) (hc : c.edit e = c.relabel id g)
    (hd : d.edit e = (d.relabel id g).toOption.getD d) :
    ∃ c', c.edit e = some c' ∧ c'.Holds (d.edit e) := by
  obtain ⟨c', d', hc', hd', h'⟩ := h.relabel hid g
  refine ⟨c', hc.trans hc', ?_⟩
  rw [hd, hd']
  exact h'

/-- An edit does to the linked nodes what it does to the document. -/
theorem Holds.edit (h : c.Holds d) {e : Edit} (he : d.accepts e = true) :
    ∃ c', c.edit e = some c' ∧ c'.Holds (d.edit e) := by
  rw [Document.accepts, Bool.and_eq_true, Bool.not_eq_true'] at he
  have hid := (h.contains e.target).1 he.1
  have hroot : e.needsParent = true → e.target ≠ d.root := by
    intro hp heq
    simp [hp, heq] at he
  cases e with
  | appendChild parent kind name value =>
    obtain ⟨c', hc', h'⟩ := h.appendChild hid (.plain kind name value)
    refine ⟨c', ?_, h'⟩
    simp only [LinkedDocument.edit, Edit.target] at hc' ⊢
    rw [hc']
    rfl
  | insertBefore before kind name value =>
    obtain ⟨c', d', hc', hd', h'⟩ := h.insertBefore hid (hroot rfl) (.plain kind name value)
    refine ⟨c', ?_, ?_⟩
    · simp only [LinkedDocument.edit, Edit.target] at hc' ⊢
      rw [hc']
      rfl
    · simp only [Document.edit, Edit.target] at hd' ⊢
      rw [hd']
      exact h'
  | remove id =>
    obtain ⟨s, front, n, kids, back, rfl, hf⟩ := Spot.exists_fill hid
    obtain ⟨c', d', hc', hd', h', -⟩ := h.remove hf (hroot rfl)
    refine ⟨c', hc', ?_⟩
    simp only [Document.edit, hd']
    exact h'
  | removeChildren id =>
    obtain ⟨s, front, n, kids, back, rfl, hf⟩ := Spot.exists_fill hid
    obtain ⟨c', hc', h', -⟩ := h.removeChildren hf
    exact ⟨c', hc', h'⟩
  | setName id name => exact h.edit_relabel hid _ rfl rfl
  | setValue id value => exact h.edit_relabel hid _ rfl rfl
  | appendAttribute id name value => exact h.edit_relabel hid _ rfl rfl
  | removeAttribute id name =>
    have hid : id ∈ d.forest.ids := hid
    refine h.edit_relabel hid (fun l => l.dropAttribute name) rfl ?_
    obtain ⟨s, front, n, kids, back, rfl, hf⟩ := Spot.exists_fill hid
    have hsubtree : d.subtree n.id = .ok ⟨n, kids⟩ := by
      unfold Document.subtree
      rw [h.subtree? hf]
    simp only [Document.edit, Document.removeAttribute, hsubtree]
    cases d.relabel n.id fun l => l.dropAttribute name <;> rfl

end LinkedDocument

end Treegram
