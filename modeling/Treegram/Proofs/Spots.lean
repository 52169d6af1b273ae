import Mathlib.Data.List.Nodup
import Treegram.Proofs.Stacking
import Treegram.Document.Placed

/-!
# Spots in a forest

A spot is where siblings stand in a forest: at the top, or below a node that has siblings of its
own (`Spot`). Each node of a forest stands somewhere (`exists_fill`), and if no identity occurs
twice, an operation on the node changes what is there and nothing else (`edit_fill`).
-/

namespace Treegram

namespace Forest

variable {f g h : Forest Node} {n : Node} {kids rest front back : Forest Node} {id : NodeId}

theorem append_assoc : ∀ f g h : Forest Node, f ++ g ++ h = f ++ (g ++ h)
  | .nil, _, _ => rfl
  | .cons n kids rest, g, h => congrArg (cons n kids) (append_assoc rest g h)

@[simp] theorem nil_append (f : Forest Node) : (.nil : Forest Node) ++ f = f :=
  rfl

@[simp] theorem cons_append (n : Node) (kids rest f : Forest Node) :
    (.cons n kids rest : Forest Node) ++ f = .cons n kids (rest ++ f) :=
  rfl

@[simp] theorem ids_nil : ids .nil = [] :=
  rfl

@[simp] theorem ids_cons (n : Node) (kids rest : Forest Node) :
    ids (.cons n kids rest) = n.id :: (kids.ids ++ rest.ids) := by
  simp [ids, nodes]

@[simp] theorem ids_append : ∀ f g : Forest Node, (f ++ g).ids = f.ids ++ g.ids
  | .nil, g => rfl
  | .cons n kids rest, g => by simp [ids_append rest g]

/-- The identities of the siblings in front, in order. -/
def tops : Forest Node → List NodeId
  | .nil => []
  | .cons n _ rest => n.id :: rest.tops

@[simp] theorem firstId?_append (f g : Forest Node) :
    (f ++ g).firstId? = f.firstId?.or g.firstId? := by
  cases f <;> rfl

@[simp] theorem lastId?_cons (n : Node) (kids rest : Forest Node) :
    (.cons n kids rest : Forest Node).lastId? = rest.lastId?.or (some n.id) := by
  induction rest generalizing n kids with
  | nil => rfl
  | cons m below rest _ ih =>
    show lastId? (.cons m below rest) = _
    rw [ih]
    cases rest.lastId? <;> rfl

@[simp] theorem lastId?_append (f g : Forest Node) :
    (f ++ g).lastId? = g.lastId?.or f.lastId? := by
  induction f with
  | nil => simp [lastId?]
  | cons n kids rest _ ih => rw [cons_append, lastId?_cons, lastId?_cons, ih, Option.or_assoc]

/-- There is a last sibling or none at all. -/
theorem eq_nil_or_concat : ∀ f : Forest Node,
    f = .nil ∨ ∃ front n kids, f = front ++ .cons n kids .nil
  | .nil => Or.inl rfl
  | .cons n kids rest => by
    rcases eq_nil_or_concat rest with rfl | ⟨front, m, below, rfl⟩
    · exact Or.inr ⟨.nil, n, kids, rfl⟩
    · exact Or.inr ⟨.cons n kids front, m, below, rfl⟩

/-! ## Operations on one node -/

/-- With what stands from the node `id` on replaced by what `e` makes of the node, what is below it
and what is behind it. -/
def edit (e : Node → Forest Node → Forest Node → Forest Node) (id : NodeId) :
    Forest Node → Forest Node
  | .nil => .nil
  | .cons n kids rest =>
    if n.id = id then e n kids rest else .cons n (kids.edit e id) (rest.edit e id)

theorem graft_eq_edit (id : NodeId) (new : Forest Node) : ∀ f : Forest Node,
    graft id new f = f.edit (fun n kids rest => .cons n (kids ++ new) rest) id
  | .nil => rfl
  | .cons n kids rest => by
    rw [graft, edit, graft_eq_edit id new kids, graft_eq_edit id new rest]

theorem insertBefore_eq_edit (id : NodeId) (new : Forest Node) : ∀ f : Forest Node,
    insertBefore id new f = f.edit (fun n kids rest => new ++ .cons n kids rest) id
  | .nil => rfl
  | .cons n kids rest => by
    rw [insertBefore, edit, insertBefore_eq_edit id new kids, insertBefore_eq_edit id new rest]

theorem erase_eq_edit (id : NodeId) : ∀ f : Forest Node,
    f.erase id = f.edit (fun _ _ rest => rest) id
  | .nil => rfl
  | .cons n kids rest => by
    rw [erase, edit, erase_eq_edit id kids, erase_eq_edit id rest]

theorem edit_of_not_mem {e : Node → Forest Node → Forest Node → Forest Node} :
    ∀ {f : Forest Node}, id ∉ f.ids → f.edit e id = f
  | .nil, _ => rfl
  | .cons n kids rest, h => by
    simp only [ids_cons, List.mem_cons, List.mem_append, not_or] at h
    rw [edit, if_neg (Ne.symm h.1), edit_of_not_mem h.2.1, edit_of_not_mem h.2.2]

theorem edit_append_of_not_mem {e : Node → Forest Node → Forest Node → Forest Node} :
    ∀ {f : Forest Node}, id ∉ f.ids → (f ++ g).edit e id = f ++ g.edit e id
  | .nil, _ => rfl
  | .cons n kids rest, h => by
    simp only [ids_cons, List.mem_cons, List.mem_append, not_or] at h
    rw [cons_append, edit, if_neg (Ne.symm h.1), edit_of_not_mem h.2.1,
      edit_append_of_not_mem h.2.2, cons_append]

theorem subtree?_of_not_mem : ∀ {f : Forest Node}, id ∉ f.ids → f.subtree? id = none
  | .nil, _ => rfl
  | .cons n kids rest, h => by
    simp only [ids_cons, List.mem_cons, List.mem_append, not_or] at h
    have hkids := subtree?_of_not_mem h.2.1
    have hrest := subtree?_of_not_mem h.2.2
    unfold subtree? at hkids hrest ⊢
    rw [find?, if_neg (by simpa using Ne.symm h.1), hkids, hrest]

theorem subtree?_append_of_not_mem : ∀ {f : Forest Node}, id ∉ f.ids →
    (f ++ g).subtree? id = g.subtree? id
  | .nil, _ => rfl
  | .cons n kids rest, h => by
    simp only [ids_cons, List.mem_cons, List.mem_append, not_or] at h
    have hkids := subtree?_of_not_mem h.2.1
    have hrest := subtree?_append_of_not_mem h.2.2
    unfold subtree? at hkids hrest ⊢
    rw [cons_append, find?, if_neg (by simpa using Ne.symm h.1), hkids]
    exact hrest

end Forest

/-! ## Spots -/

/-- Where siblings stand: at the top, or below a node between others. -/
inductive Spot where
  | top
  | under (n : Node) (front back : Forest Node) (above : Spot)

namespace Spot

/-- The forest in which these are the siblings at the spot. -/
def fill : Spot → Forest Node → Forest Node
  | top, f => f
  | under n front back above, f => above.fill (front ++ .cons n f back)

def parent? : Spot → Option NodeId
  | top => none
  | under n _ _ _ => some n.id

/-- The identities of all other nodes. -/
def ids : Spot → List NodeId
  | top => []
  | under n front back above => n.id :: (front.ids ++ back.ids ++ above.ids)

theorem ids_fill : ∀ (s : Spot) (f : Forest Node), (s.fill f).ids.Perm (s.ids ++ f.ids)
  | top, f => .refl _
  | under n front back above, f => by
    refine (ids_fill above _).trans ?_
    refine List.perm_iff_count.2 fun id => ?_
    simp only [ids, Forest.ids_append, Forest.ids_cons, List.count_append, List.count_cons]
    omega

theorem nodup_fill {s : Spot} {f : Forest Node} :
    (s.fill f).ids.Nodup ↔ s.ids.Nodup ∧ f.ids.Nodup ∧ ∀ id ∈ s.ids, id ∉ f.ids := by
  rw [(s.ids_fill f).nodup_iff, List.nodup_append']
  rfl

theorem mem_ids_fill {s : Spot} {f : Forest Node} {id : NodeId} :
    id ∈ (s.fill f).ids ↔ id ∈ s.ids ∨ id ∈ f.ids := by
  rw [(s.ids_fill f).mem_iff, List.mem_append]

/-- Each node stands somewhere. -/
theorem exists_fill_of_mem {id : NodeId} : ∀ (f : Forest Node) (s : Spot) (front : Forest Node),
    id ∈ f.ids → ∃ (s' : Spot) (front' : Forest Node) (n : Node) (kids back : Forest Node),
      n.id = id ∧ s.fill (front ++ f) = s'.fill (front' ++ .cons n kids back)
  | .nil, _, _, h => by simp at h
  | .cons n kids rest, s, front, h => by
    simp only [Forest.ids_cons, List.mem_cons, List.mem_append] at h
    rcases h with rfl | h | h
    · exact ⟨s, front, n, kids, rest, rfl, rfl⟩
    · exact exists_fill_of_mem kids (under n front rest s) .nil h
    · obtain ⟨s', front', m, below, back, hm, heq⟩ :=
        exists_fill_of_mem rest s (front ++ .cons n kids .nil) h
      refine ⟨s', front', m, below, back, hm, ?_⟩
      rw [← heq, Forest.append_assoc]
      rfl

theorem exists_fill {id : NodeId} {f : Forest Node} (h : id ∈ f.ids) :
    ∃ (s : Spot) (front : Forest Node) (n : Node) (kids back : Forest Node),
      n.id = id ∧ f = s.fill (front ++ .cons n kids back) :=
  exists_fill_of_mem f top .nil h

theorem edit_fill_of_not_mem {e : Node → Forest Node → Forest Node → Forest Node} {id : NodeId} :
    ∀ {s : Spot} {f : Forest Node}, id ∉ s.ids → (s.fill f).edit e id = s.fill (f.edit e id)
  | top, f, _ => rfl
  | under n front back above, f, h => by
    simp only [ids, List.mem_cons, List.mem_append, not_or] at h
    obtain ⟨hn, ⟨hfront, hback⟩, habove⟩ := h
    rw [fill, edit_fill_of_not_mem habove, Forest.edit_append_of_not_mem hfront, Forest.edit,
      if_neg (Ne.symm hn), Forest.edit_of_not_mem hback]
    rfl

theorem subtree?_fill_of_not_mem {id : NodeId} : ∀ {s : Spot} {f : Forest Node},
    id ∉ s.ids → (s.fill f).subtree? id = f.subtree? id
  | top, f, _ => rfl
  | under n front back above, f, h => by
    simp only [ids, List.mem_cons, List.mem_append, not_or] at h
    obtain ⟨hn, ⟨hfront, hback⟩, habove⟩ := h
    have hback := Forest.subtree?_of_not_mem hback
    rw [fill, subtree?_fill_of_not_mem habove, Forest.subtree?_append_of_not_mem hfront]
    unfold Forest.subtree? at hback ⊢
    rw [Forest.find?, if_neg (by simpa using Ne.symm hn), hback]
    cases f.find? fun n => n.id == id <;> rfl

section Fill

variable {s : Spot} {n : Node} {front kids back : Forest Node}
  (h : (s.fill (front ++ .cons n kids back)).ids.Nodup)

include h

theorem not_mem_of_nodup_fill : n.id ∉ s.ids ∧ n.id ∉ front.ids := by
  obtain ⟨-, hd, hdisj⟩ := nodup_fill.1 h
  refine ⟨fun hs => hdisj _ hs (by simp), fun hf => ?_⟩
  rw [Forest.ids_append] at hd
  exact List.disjoint_of_nodup_append hd hf (by simp)

/-- The node that stands somewhere is the one with its identity. -/
theorem subtree?_fill :
    (s.fill (front ++ .cons n kids back)).subtree? n.id = some ⟨n, kids⟩ := by
  obtain ⟨hs, hfront⟩ := not_mem_of_nodup_fill h
  rw [subtree?_fill_of_not_mem hs, Forest.subtree?_append_of_not_mem hfront, Forest.subtree?,
    Forest.find?, if_pos (by simp)]

/-- An operation on a node changes what stands where it stands. -/
theorem edit_fill {e : Node → Forest Node → Forest Node → Forest Node} :
    (s.fill (front ++ .cons n kids back)).edit e n.id = s.fill (front ++ e n kids back) := by
  obtain ⟨hs, hfront⟩ := not_mem_of_nodup_fill h
  rw [edit_fill_of_not_mem hs, Forest.edit_append_of_not_mem hfront, Forest.edit, if_pos rfl]

end Fill

end Spot

end Treegram
