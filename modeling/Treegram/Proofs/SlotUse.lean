import Treegram.Proofs.DocumentLinks
import Treegram.Proofs.Strays

/-!
# Who lives in which slot

Each slot that was ever opened holds one live node, in the tree or beside it, or is vacant
(`Housed`). Edits keep it so, whether they fail or not (`housed_edits`): an edit takes the next slot
for a new node, or vacates the slots of those that go (`Housed.edit_cases`).

The tree and the strays are treated alike here, as the `pieces` of a document. An operation on a
node changes the one piece that it lives in (`Stray.flatMap_map_perm`), and that piece is a forest to
which the same is done, but for a node that is its own parent. There is nothing below it where it
stands among its children (`Stray.Bare`), so none is lost when it is freed with them.
-/

namespace Treegram

namespace Slots

variable {s : Slots} {ids : List NodeId}

/-- Whether each slot that was opened holds one of these nodes or is vacant. -/
def Holds (s : Slots) (ids : List NodeId) : Prop :=
  (ids.map NodeId.slot ++ s.vacant).Perm (List.range s.opened)

theorem Holds.advance (h : s.Holds ids) : s.advance.Holds (⟨s.next⟩ :: ids) := by
  unfold Holds at h ⊢
  rcases hv : s.vacant with _ | ⟨v, vacant⟩ <;> rw [hv] at h
  · simp only [Slots.advance, next, hv, List.headD_nil, List.map_cons, List.append_nil,
      List.range_succ] at h ⊢
    exact (h.cons _).trans (List.perm_append_singleton _ _).symm
  · simp only [Slots.advance, next, hv, List.headD_cons, List.map_cons, List.cons_append] at h ⊢
    exact List.perm_middle.symm.trans h

theorem Holds.vacate {gone left : List NodeId} {slots : List Nat} (h : s.Holds ids)
    (hids : (gone ++ left).Perm ids) (hslots : slots.Perm (gone.map NodeId.slot)) :
    (s.vacate slots).Holds left := by
  unfold Holds Slots.vacate at *
  refine List.Perm.trans ?_ h
  refine .trans ?_ ((hids.map NodeId.slot).append_right _)
  rw [List.map_append, ← List.append_assoc]
  exact (List.perm_append_comm.trans (hslots.append_right _)).append_right _

theorem Holds.nodup (h : s.Holds ids) : ids.Nodup :=
  ((h.nodup_iff.2 List.nodup_range).of_append_left).of_map _

/-- The next node is none that lives. -/
theorem Holds.next_not_mem (h : s.Holds ids) : ⟨s.next⟩ ∉ ids :=
  (List.nodup_cons.1 h.advance.nodup).1

end Slots

/-! ## Forests -/

namespace Forest

variable {f : Forest Node} {id own : NodeId}

theorem isSome_subtree? : ∀ {f : Forest Node}, (f.subtree? id).isSome ↔ id ∈ f.ids
  | .nil => by simp [subtree?, find?]
  | .cons n kids rest => by
    have hkids := isSome_subtree? (f := kids)
    have hrest := isSome_subtree? (f := rest)
    unfold subtree? at hkids hrest ⊢
    rw [find?, ids_cons, List.mem_cons, List.mem_append, ← hkids, ← hrest]
    by_cases hn : n.id = id
    · simp [hn]
    · rw [if_neg (by simpa using hn)]
      cases kids.find? fun n => n.id == id <;> simp [Ne.symm hn]

theorem after?_of_not_mem : ∀ {f : Forest Node}, id ∉ f.ids → f.after? id = none
  | .nil, _ => rfl
  | .cons n kids rest, h => by
    simp only [ids_cons, List.mem_cons, List.mem_append, not_or] at h
    rw [after?, if_neg (Ne.symm h.1), after?_of_not_mem h.2.1, after?_of_not_mem h.2.2]

theorem postorder_perm : ∀ f : Forest Node, (f.postorder.map Node.id).Perm f.ids
  | .nil => .refl _
  | .cons n kids rest => by
    rw [postorder, List.map_append, List.map_cons, ids_cons]
    exact ((postorder_perm kids).append ((postorder_perm rest).cons n.id)).trans List.perm_middle

/-- An operation on a node that adds something where it stands adds it to the forest. -/
theorem ids_edit {e : Node → Forest Node → Forest Node → Forest Node} {new : List NodeId}
    (hd : f.ids.Nodup) (hid : id ∈ f.ids)
    (he : ∀ n kids back, (e n kids back).ids.Perm (new ++ (cons n kids back).ids)) :
    (f.edit e id).ids.Perm (new ++ f.ids) := by
  obtain ⟨s, front, n, kids, back, rfl, rfl⟩ := Spot.exists_fill hid
  rw [Spot.edit_fill hd]
  refine (s.ids_fill _).trans (.trans ?_ ((s.ids_fill _).symm.append_left _))
  refine List.perm_iff_count.2 fun k => ?_
  have hcount := (he n kids back).count_eq k
  simp only [ids_append, List.count_append] at hcount ⊢
  omega

theorem ids_graft (hd : f.ids.Nodup) (hid : id ∈ f.ids) (new : Forest Node) :
    (graft id new f).ids.Perm (new.ids ++ f.ids) := by
  rw [graft_eq_edit]
  refine ids_edit hd hid fun n kids back => List.perm_iff_count.2 fun k => ?_
  simp only [ids_append, ids_cons, List.count_append, List.count_cons]
  omega

theorem ids_insertBefore (hd : f.ids.Nodup) (hid : id ∈ f.ids) (new : Forest Node) :
    (insertBefore id new f).ids.Perm (new.ids ++ f.ids) := by
  rw [insertBefore_eq_edit]
  refine ids_edit hd hid fun n kids back => ?_
  rw [ids_append]

theorem ids_erase {t : Tree Node} (hd : f.ids.Nodup) (ht : f.subtree? id = some t) :
    (t.ids ++ (f.erase id).ids).Perm f.ids := by
  have hid : id ∈ f.ids := isSome_subtree?.1 (by rw [ht]; rfl)
  obtain ⟨s, front, n, kids, back, rfl, rfl⟩ := Spot.exists_fill hid
  obtain rfl := Option.some.inj (ht.symm.trans (Spot.subtree?_fill hd))
  rw [erase_eq_edit, Spot.edit_fill hd]
  exact (LinkedDocument.ids_erase s n front kids back).symm

/-- Whether a node is one of the siblings in front, and there is nothing below it. -/
def HasLeaf (own : NodeId) : Forest Node → Prop
  | .nil => False
  | .cons n kids rest => n.id = own ∧ kids = .nil ∨ rest.HasLeaf own

theorem HasLeaf.append (g : Forest Node) : ∀ {f : Forest Node}, f.HasLeaf own →
    (f ++ g).HasLeaf own
  | .cons _ _ _, .inl h => .inl h
  | .cons _ _ _, .inr h => .inr (h.append g)

theorem HasLeaf.append_left {g : Forest Node} (h : g.HasLeaf own) : ∀ f : Forest Node,
    (f ++ g).HasLeaf own
  | .nil => h
  | .cons _ _ rest => .inr (h.append_left rest)

theorem HasLeaf.relabel (g : Label → Label) : ∀ {f : Forest Node}, f.HasLeaf own →
    (f.relabel id g).HasLeaf own
  | .cons n _ _, .inl ⟨hn, hkids⟩ => by
    subst hkids
    rw [relabel_cons]
    exact .inl ⟨hn, rfl⟩
  | .cons n _ _, .inr h => by
    rw [relabel_cons]
    exact .inr (h.relabel g)

theorem HasLeaf.edit {e : Node → Forest Node → Forest Node → Forest Node}
    (he : ∀ n kids rest, n.id = id → (cons n kids rest).HasLeaf own →
      (e n kids rest).HasLeaf own) : ∀ {f : Forest Node}, f.HasLeaf own →
    (f.edit e id).HasLeaf own
  | .cons n kids rest, h => by
    rw [Forest.edit]
    split
    · rename_i hn
      exact he n kids rest hn h
    · rcases h with ⟨hn, rfl⟩ | h
      · exact .inl ⟨hn, rfl⟩
      · exact .inr (h.edit he)

theorem HasLeaf.graft (hne : id ≠ own) (new : Forest Node) (h : f.HasLeaf own) :
    (graft id new f).HasLeaf own := by
  rw [graft_eq_edit]
  refine h.edit fun n kids rest hn h => ?_
  exact .inr (h.resolve_left fun h => hne (hn ▸ h.1))

theorem HasLeaf.insertBefore (id : NodeId) (new : Forest Node) (h : f.HasLeaf own) :
    (insertBefore id new f).HasLeaf own := by
  rw [insertBefore_eq_edit]
  exact h.edit fun n kids rest _ h => h.append_left new

theorem HasLeaf.erase (hne : id ≠ own) (h : f.HasLeaf own) : (f.erase id).HasLeaf own := by
  rw [erase_eq_edit]
  refine h.edit fun n kids rest hn h => ?_
  exact h.resolve_left fun h => hne (hn ▸ h.1)

theorem HasLeaf.exists_append : ∀ {f : Forest Node}, f.HasLeaf own →
    ∃ (front : Forest Node) (n : Node) (back : Forest Node),
      n.id = own ∧ f = front ++ .cons n .nil back
  | .cons n _ rest, .inl ⟨hn, hkids⟩ => ⟨.nil, n, rest, hn, by rw [hkids, nil_append]⟩
  | .cons n kids _, .inr h => by
    obtain ⟨front, m, back, hm, rfl⟩ := h.exists_append
    exact ⟨.cons n kids front, m, back, hm, rfl⟩

theorem HasLeaf.mem_ids (h : f.HasLeaf own) : own ∈ f.ids := by
  obtain ⟨front, n, back, rfl, rfl⟩ := h.exists_append
  simp

theorem HasLeaf.subtree? (h : f.HasLeaf own) (hd : f.ids.Nodup) :
    ∃ n, n.id = own ∧ f.subtree? own = some ⟨n, .nil⟩ := by
  obtain ⟨front, n, back, rfl, rfl⟩ := h.exists_append
  exact ⟨n, rfl, Spot.subtree?_fill (s := .top) hd⟩

end Forest

theorem Tree.postorder_perm (t : Tree Node) :
    (t.postorder.map fun n => n.id.slot).Perm (t.ids.map NodeId.slot) := by
  have hids : (t.postorder.map Node.id).Perm t.ids := by
    rw [Tree.postorder, List.map_append, Tree.ids]
    exact ((Forest.postorder_perm t.children).append_right _).trans
      (List.perm_append_singleton _ _)
  simpa [Function.comp_def] using hids.map NodeId.slot

/-! ## Pieces -/

namespace Stray

variable {s : Stray} {id : NodeId} {new : Forest Node}

/-- All that is there, as a forest. -/
def forest : Stray → Forest Node
  | lost t => .single t
  | looped _ siblings => siblings

def ids (s : Stray) : List NodeId :=
  s.forest.ids

@[simp] theorem ids_lost (t : Tree Node) : (lost t).ids = t.ids :=
  Forest.ids_single t

@[simp] theorem ids_looped (own : NodeId) (siblings : Forest Node) :
    (looped own siblings).ids = siblings.ids :=
  rfl

/-- Whether a node that is its own parent stands among its children with nothing below it. -/
def Bare : Stray → Prop
  | lost _ => True
  | looped own siblings => siblings.HasLeaf own

theorem isSome_subtree? : (s.subtree? id).isSome ↔ id ∈ s.ids := by
  unfold ids
  rw [← Forest.isSome_subtree?]
  cases s with
  | lost t => rw [forest, Forest.subtree?_single, Stray.subtree?]
  | looped own siblings => rw [Stray.subtree?, Option.isSome_map, forest]

theorem subtree?_of_not_mem (h : id ∉ s.ids) : s.subtree? id = none := by
  rwa [← isSome_subtree?, Bool.not_eq_true, Option.isSome_eq_false_iff, Option.isNone_iff_eq_none]
    at h

theorem links?_of_not_mem (h : id ∉ s.ids) : s.links? id = none := by
  cases s with
  | lost t => exact Forest.links?_of_not_mem h
  | looped own siblings =>
    rw [ids_looped] at h
    rw [Stray.links?, Forest.links?_of_not_mem h, Option.map_none]

theorem after?_of_not_mem (h : id ∉ s.ids) : s.after? id = none := by
  cases s <;> exact Forest.after?_of_not_mem h

theorem whole?_of_not_mem (h : id ∉ s.ids) : s.whole? id = none := by
  cases s with
  | lost t =>
    refine if_neg fun hn => h ?_
    simp [Tree.ids, hn]
  | looped own siblings =>
    refine ite_eq_right_iff.2 ?_
    rintro rfl
    rw [ids_looped] at h
    rw [Forest.subtree?_of_not_mem h, Option.map_none]

theorem isTop_of_not_mem (h : id ∉ s.ids) : s.isTop id = false := by
  cases s with
  | lost t =>
    rw [isTop, beq_eq_false_iff_ne]
    rintro rfl
    simp [Tree.ids] at h
  | looped own siblings => rfl

theorem Bare.subtree?_of_whole? (h : s.Bare) (hd : s.ids.Nodup) {u : Tree Node}
    (hw : s.whole? id = some u) :
    u.ids.Perm s.ids ∧ ∃ t, s.subtree? id = some t ∧ ∀ k, k ∈ t.ids ↔ k ∈ u.ids := by
  cases s with
  | lost t =>
    obtain ⟨hn, rfl⟩ : t.node.id = id ∧ t = u := by simpa [whole?] using hw
    refine ⟨by rw [ids_lost], t, ?_, fun k => .rfl⟩
    rw [Stray.subtree?, Tree.find?, if_pos (by simpa using hn)]
  | looped own siblings =>
    obtain ⟨n, rfl, hn⟩ := Forest.HasLeaf.subtree? h hd
    obtain ⟨rfl, rfl⟩ : n.id = id ∧ ⟨n, siblings.erase n.id⟩ = u := by
      simpa [whole?, hn] using hw
    have hperm : (n.id :: (siblings.erase n.id).ids).Perm siblings.ids := Forest.ids_erase hd hn
    refine ⟨hperm, ⟨n, siblings⟩, by simp [Stray.subtree?, hn], fun k => ?_⟩
    rw [Tree.ids, Tree.ids, hperm.mem_iff, List.mem_cons, or_iff_right_iff_imp]
    rintro rfl
    exact h.mem_ids

/-- A stray that is not freed with a node is a forest like others to it. -/
theorem Bare.subtree?_of_whole?_eq_none (h : s.Bare) (hw : s.whole? id = none) :
    s.subtree? id = s.forest.subtree? id := by
  cases s with
  | lost t => exact (Forest.subtree?_single t id).symm
  | looped own siblings =>
    obtain ⟨t, ht⟩ := Option.isSome_iff_exists.1 (Forest.isSome_subtree?.2 h.mem_ids)
    simp [Stray.subtree?, forest, (ne_of_whole?_eq_none ht hw).symm]

@[simp] theorem ids_relabel (g : Label → Label) : (s.relabel id g).ids = s.ids := by
  cases s with
  | lost t =>
    simp only [Stray.relabel, ids_lost, Tree.ids, Tree.relabel, Forest.ids_relabel]
    split <;> rfl
  | looped own siblings => exact Forest.ids_relabel id g siblings

theorem ids_graft_lost (t : Tree Node) :
    ((lost t).graft id new).ids = (Forest.graft id new (lost t).forest).ids := by
  show (Forest.single (t.graft id new)).ids = (Forest.graft id new (.single t)).ids
  unfold Forest.single Tree.graft
  rw [Forest.graft]
  split <;> rfl

theorem ids_graft_looped {own : NodeId} {siblings : Forest Node} (hne : id ≠ own) :
    ((looped own siblings).graft id new).ids = (Forest.graft id new siblings).ids := by
  rw [Stray.graft, if_neg hne]
  rfl

theorem Bare.ids_graft (h : s.Bare) (hd : s.ids.Nodup) (hid : id ∈ s.ids) (new : Forest Node) :
    (s.graft id new).ids.Perm (new.ids ++ s.ids) := by
  cases s with
  | lost t =>
    rw [ids_graft_lost]
    exact Forest.ids_graft hd hid new
  | looped own siblings =>
    by_cases hown : id = own
    · rw [Stray.graft, if_pos hown, ids_looped, Forest.ids_append]
      exact List.perm_append_comm
    · rw [ids_graft_looped hown]
      exact Forest.ids_graft hd hid new

theorem Bare.ids_graft_of_not_mem (h : s.Bare) (hid : id ∉ s.ids) (new : Forest Node) :
    (s.graft id new).ids = s.ids := by
  cases s with
  | lost t =>
    rw [ids_graft_lost, Forest.graft_eq_edit, Forest.edit_of_not_mem hid]
    rfl
  | looped own siblings =>
    have hne : id ≠ own := fun heq => hid (heq ▸ h.mem_ids)
    rw [ids_looped] at hid
    rw [ids_graft_looped hne, Forest.graft_eq_edit, Forest.edit_of_not_mem hid, ids_looped]

theorem forest_insertBefore (htop : s.isTop id = false) :
    (s.insertBefore id new).forest = .insertBefore id new s.forest := by
  cases s with
  | lost t =>
    have hne : t.node.id ≠ id := by simpa [isTop] using htop
    unfold Stray.insertBefore forest Forest.single
    rw [Forest.insertBefore, if_neg hne]
    rfl
  | looped own siblings => rfl

theorem forest_erase (hw : s.whole? id = none) : (s.erase id).forest = s.forest.erase id := by
  cases s with
  | lost t =>
    have hne : t.node.id ≠ id := by simpa [whole?] using hw
    unfold Stray.erase forest Forest.single
    rw [Forest.erase, if_neg hne]
    rfl
  | looped own siblings => rfl

theorem bare_kept : Kept Bare where
  lost _ := trivial
  looped _ := .inl ⟨rfl, rfl⟩
  relabel {s} id g h := by
    cases s with
    | lost t => trivial
    | looped own siblings => exact Forest.HasLeaf.relabel g h
  graft {s} id new h := by
    cases s with
    | lost t => trivial
    | looped own siblings =>
      rw [Stray.graft, Bare]
      split
      · exact Forest.HasLeaf.append new h
      · rename_i hne
        exact Forest.HasLeaf.graft hne new h
  insertBefore {s} id new h := by
    cases s with
    | lost t => trivial
    | looped own siblings => exact Forest.HasLeaf.insertBefore id new h
  erase {s id} h hw := by
    cases s with
    | lost t => trivial
    | looped own siblings =>
      obtain ⟨t, ht⟩ := Option.isSome_iff_exists.1 (Forest.isSome_subtree?.2 h.mem_ids)
      exact Forest.HasLeaf.erase (ne_of_whole?_eq_none ht hw).symm h

/-! ## Lists of pieces -/

variable {ps : List Stray}

/-- An operation that is on one node adds or takes what it does in the piece of this node. -/
theorem flatMap_map_perm (op : Stray → Stray) {a b : List NodeId} : ∀ {ps : List Stray},
    (ps.flatMap ids).Nodup → id ∈ ps.flatMap ids →
      (∀ s ∈ ps, id ∉ s.ids → (op s).ids = s.ids) →
      (∀ s ∈ ps, id ∈ s.ids → s.ids.Nodup → (a ++ (op s).ids).Perm (b ++ s.ids)) →
      (a ++ (ps.map op).flatMap ids).Perm (b ++ ps.flatMap ids)
  | [], _, hid, _, _ => by simp at hid
  | s :: ps, hd, hid, hmiss, hhit => by
    rw [List.forall_mem_cons] at hmiss hhit
    rw [List.flatMap_cons, List.nodup_append'] at hd
    obtain ⟨hds, hdps, hdisj⟩ := hd
    rw [List.map_cons, List.flatMap_cons, List.flatMap_cons]
    by_cases hs : id ∈ s.ids
    · have hps : (ps.map op).flatMap ids = ps.flatMap ids := by
        rw [List.flatMap_map]
        refine List.flatMap_congr fun u hu => hmiss.2 u hu fun hid => ?_
        exact hdisj hs (List.mem_flatMap.2 ⟨u, hu, hid⟩)
      rw [hps, ← List.append_assoc, ← List.append_assoc]
      exact (hhit.1 hs hds).append_right _
    · rw [List.flatMap_cons, List.mem_append, or_iff_right hs] at hid
      rw [hmiss.1 hs]
      exact (List.perm_append_comm_assoc _ _ _).trans
        (((flatMap_map_perm op hdps hid hmiss.2 hhit.2).append_left _).trans
          (List.perm_append_comm_assoc _ _ _))

theorem findSome?_subtree? : ∀ {ps : List Stray}, (ps.flatMap ids).Nodup → ∀ s ∈ ps, id ∈ s.ids →
    ps.findSome? (Stray.subtree? id) = s.subtree? id
  | u :: ps, hd, s, hs, hid => by
    rw [List.flatMap_cons, List.nodup_append'] at hd
    obtain ⟨-, hdps, hdisj⟩ := hd
    rw [List.findSome?_cons]
    rcases List.mem_cons.1 hs with rfl | hs
    · obtain ⟨t, ht⟩ := Option.isSome_iff_exists.1 (isSome_subtree?.2 hid)
      rw [ht]
    · have hu : id ∉ u.ids := fun hu => hdisj hu (List.mem_flatMap.2 ⟨s, hs, hid⟩)
      rw [subtree?_of_not_mem hu]
      exact findSome?_subtree? hdps s hs hid

theorem isSome_findSome?_subtree? :
    (ps.findSome? (Stray.subtree? id)).isSome ↔ id ∈ ps.flatMap ids := by
  rw [List.isSome_findSome?, List.any_eq_true, List.mem_flatMap]
  exact exists_congr fun s => and_congr_right fun _ => isSome_subtree?

/-- When a node is freed with all of its stray, the others stay. -/
theorem filter_perm {u : Tree Node} : ∀ {ps : List Stray}, (∀ s ∈ ps, s.Bare) →
    (ps.flatMap ids).Nodup → ps.findSome? (whole? id) = some u →
      (u.ids ++ (ps.filter fun s => (s.whole? id).isNone).flatMap ids).Perm (ps.flatMap ids)
  | [], _, _, hu => by simp at hu
  | s :: ps, hb, hd, hu => by
    rw [List.forall_mem_cons] at hb
    rw [List.flatMap_cons, List.nodup_append'] at hd
    obtain ⟨hds, hdps, hdisj⟩ := hd
    rw [List.findSome?_cons] at hu
    rcases hw : s.whole? id with _ | v <;> rw [hw] at hu
    · rw [List.filter_cons_of_pos (by rw [hw]; rfl), List.flatMap_cons, List.flatMap_cons]
      exact (List.perm_append_comm_assoc _ _ _).trans ((filter_perm hb.2 hdps hu).append_left _)
    · obtain rfl := Option.some.inj hu
      obtain ⟨hperm, t, ht, -⟩ := hb.1.subtree?_of_whole? hds hw
      have hid : id ∈ s.ids := isSome_subtree?.1 (by rw [ht]; rfl)
      have hps : (ps.filter fun s => (s.whole? id).isNone) = ps := by
        refine List.filter_eq_self.2 fun u hu => ?_
        rw [whole?_of_not_mem fun hmem => hdisj hid (List.mem_flatMap.2 ⟨u, hu, hmem⟩)]
        rfl
      rw [List.filter_cons_of_neg (by rw [hw]; simp), hps, List.flatMap_cons]
      exact hperm.append_right _

end Stray

/-! ## Documents -/

namespace Document

variable {d d' : Document} {id : NodeId}

/-- The tree, which counts as one of them here, and the strays. -/
def pieces (d : Document) : List Stray :=
  .lost d.tree :: d.strays

/-- The identities of all live nodes. -/
def ids (d : Document) : List NodeId :=
  d.pieces.flatMap Stray.ids

theorem subtree?_eq_findSome? (d : Document) (id : NodeId) :
    d.subtree? id = d.pieces.findSome? (Stray.subtree? id) := by
  rw [pieces, List.findSome?_cons, subtree?, Stray.subtree?]
  cases d.tree.find? fun n => n.id == id <;> rfl

theorem contains_iff : d.contains id = true ↔ id ∈ d.ids := by
  rw [contains, subtree?_eq_findSome?]
  exact Stray.isSome_findSome?_subtree?

/-- Whether each slot that was opened holds one live node or is vacant. -/
structure Housed (d : Document) : Prop where
  slots : d.slots.Holds d.ids
  bare : ∀ s ∈ d.strays, s.Bare

/-- Whether one document is another with a new node in the next slot. -/
structure Gains (d d' : Document) : Prop where
  slots : d'.slots = d.slots.advance
  ids : d'.ids.Perm (⟨d.slots.next⟩ :: d.ids)

/-- Whether one document is another without these nodes, whose slots are vacant. -/
structure Loses (d d' : Document) (gone : List NodeId) : Prop where
  ids : (gone ++ d'.ids).Perm d.ids
  slots : ∃ vs : List Nat, vs.Perm (gone.map NodeId.slot) ∧ d'.slots = d.slots.vacate vs

theorem Loses.refl (d : Document) : d.Loses d [] where
  ids := .refl _
  slots := ⟨[], .refl _, rfl⟩

theorem Loses.trans {d'' : Document} {gone gone' : List NodeId} (h : d.Loses d' gone)
    (h' : d'.Loses d'' gone') : d.Loses d'' (gone ++ gone') where
  ids := by
    rw [List.append_assoc]
    exact (h'.ids.append_left _).trans h.ids
  slots := by
    obtain ⟨vs, hvs, hslots⟩ := h.slots
    obtain ⟨vs', hvs', hslots'⟩ := h'.slots
    refine ⟨vs' ++ vs, ?_, ?_⟩
    · rw [List.map_append]
      exact (hvs'.append hvs).trans List.perm_append_comm
    · rw [hslots', hslots, Slots.vacate, Slots.vacate, Slots.vacate, List.append_assoc]

theorem housed_empty : empty.Housed where
  slots := .refl _
  bare := by simp [empty]

namespace Housed

variable (h : d.Housed)

include h

theorem nodup : d.ids.Nodup :=
  h.slots.nodup

theorem bare_pieces : ∀ s ∈ d.pieces, s.Bare :=
  List.forall_mem_cons.2 ⟨trivial, h.bare⟩

/-- The next node is none that lives. -/
theorem contains_next : d.contains ⟨d.slots.next⟩ = false := by
  rw [← Bool.not_eq_true, contains_iff]
  exact h.slots.next_not_mem

theorem appendChild (parent : NodeId) (l : Label) : d.Gains (d.appendChild parent l).2 := by
  unfold Document.appendChild graft
  by_cases hp : d.contains parent = true
  · rw [if_pos hp]
    refine ⟨rfl, ?_⟩
    refine Stray.flatMap_map_perm (.graft parent (.cons (d.fresh l) .nil .nil)) (a := [])
      (b := [⟨d.slots.next⟩]) h.nodup (contains_iff.1 hp)
      (fun s hs hid => (h.bare_pieces s hs).ids_graft_of_not_mem hid _) fun s hs hid hd => ?_
    exact (h.bare_pieces s hs).ids_graft hd hid _
  · rw [if_neg hp]
    dsimp only
    split
    · exact ⟨rfl, List.perm_middle⟩
    · exact ⟨rfl, List.perm_middle⟩

theorem insertBefore {l : Label} {p : Document × NodeId} (hi : d.insertBefore id l = .ok p) :
    d.Gains p.1 := by
  unfold Document.insertBefore at hi
  split at hi
  · simp at hi
  rename_i htop
  split at hi
  · rename_i hb
    have htops : ∀ s ∈ d.pieces, s.isTop id = false := by
      simpa [isTop, pieces, root, Stray.isTop] using htop
    rw [← Except.ok.inj hi]
    refine ⟨rfl, ?_⟩
    refine Stray.flatMap_map_perm (.insertBefore id (.cons (d.fresh l) .nil .nil)) (a := [])
      (b := [⟨d.slots.next⟩]) h.nodup (contains_iff.1 hb) (fun s hs hid => ?_)
      fun s hs hid hd => ?_
    · rw [Stray.ids, Stray.forest_insertBefore (htops s hs), Forest.insertBefore_eq_edit,
        Forest.edit_of_not_mem hid, Stray.ids]
    · rw [List.nil_append, Stray.ids, Stray.forest_insertBefore (htops s hs)]
      exact Forest.ids_insertBefore hd hid _
  · simp at hi

/-- All that is below a removed node goes with it, and gives way to the next nodes. -/
theorem exists_remove (hr : d.remove id = .ok d') :
    ∃ t u, d.subtree? id = some t ∧ (∀ k, k ∈ t.ids ↔ k ∈ u.ids) ∧ d'.slots = d.vacate u ∧
      (u.ids ++ d'.ids).Perm d.ids := by
  have hd := h.nodup
  unfold Document.remove at hr
  split at hr
  · simp at hr
  rename_i hroot
  split at hr
  · rename_i u hu
    obtain ⟨s, hs, hw⟩ := List.exists_of_findSome?_eq_some hu
    have hs : s ∈ d.pieces := List.mem_cons_of_mem _ hs
    have hds : s.ids.Nodup := (List.nodup_flatMap.1 hd).1 s hs
    obtain ⟨-, t, ht, hids⟩ := (h.bare_pieces s hs).subtree?_of_whole? hds hw
    have hid : id ∈ s.ids := Stray.isSome_subtree?.1 (by rw [ht]; rfl)
    refine ⟨t, u, ?_, hids, by rw [← Except.ok.inj hr], ?_⟩
    · rw [subtree?_eq_findSome?, Stray.findSome?_subtree? hd s hs hid, ht]
    · rw [← Except.ok.inj hr]
      rw [ids, pieces, List.flatMap_cons, List.nodup_append'] at hd
      exact (List.perm_append_comm_assoc _ _ _).trans
        ((Stray.filter_perm h.bare hd.2.1 hu).append_left _)
  · rename_i hwhole
    have hwhole : ∀ s ∈ d.pieces, s.whole? id = none := by
      refine List.forall_mem_cons.2 ⟨if_neg hroot, ?_⟩
      rwa [List.findSome?_eq_none_iff] at hwhole
    split at hr
    · rename_i t ht
      have hid : id ∈ d.ids := contains_iff.1 (by rw [contains, ht]; rfl)
      refine ⟨t, t, ht, fun k => .rfl, by rw [← Except.ok.inj hr], ?_⟩
      rw [← Except.ok.inj hr]
      refine Stray.flatMap_map_perm (.erase id) (b := []) hd hid (fun s hs hid => ?_)
        fun s hs hid hds => ?_
      · rw [Stray.ids, Stray.forest_erase (hwhole s hs), Forest.erase_eq_edit,
          Forest.edit_of_not_mem hid, Stray.ids]
      · rw [subtree?_eq_findSome?, Stray.findSome?_subtree? hd s hs hid,
          (h.bare_pieces s hs).subtree?_of_whole?_eq_none (hwhole s hs)] at ht
        rw [List.nil_append, Stray.ids, Stray.forest_erase (hwhole s hs)]
        exact Forest.ids_erase hds ht
    · simp at hr

theorem remove (hr : d.remove id = .ok d') : ∃ gone, d.Loses d' gone := by
  obtain ⟨t, u, -, -, hslots, hids⟩ := h.exists_remove hr
  exact ⟨u.ids, hids, _, u.postorder_perm, hslots⟩

omit h in
theorem relabel {g : Label → Label} (hr : d.relabel id g = .ok d') : d.Loses d' [] := by
  unfold Document.relabel at hr
  split at hr
  · rw [← Except.ok.inj hr]
    refine ⟨?_, (Loses.refl d).slots⟩
    show ((d.pieces.map (Stray.relabel id g)).flatMap Stray.ids).Perm d.ids
    rw [List.flatMap_map]
    simp only [Stray.ids_relabel]
    exact .refl _
  · simp at hr

omit h in
theorem relabel_getD (id : NodeId) (g : Label → Label) :
    d.Loses ((d.relabel id g).toOption.getD d) [] := by
  rcases hr : d.relabel id g with cause | d'
  · exact .refl d
  · exact relabel hr

theorem of_loses {gone : List NodeId} (hl : d.Loses d' gone) (hb : ∀ s ∈ d'.strays, s.Bare) :
    d'.Housed where
  slots := by
    obtain ⟨vs, hvs, hslots⟩ := hl.slots
    rw [hslots]
    exact h.slots.vacate hl.ids hvs
  bare := hb

omit h in
theorem removeAll : ∀ (ids : List NodeId) {d : Document}, d.Housed →
    ∃ gone, d.Loses (d.removeAll ids) gone
  | [], d, _ => ⟨[], .refl d⟩
  | id :: ids, d, h => by
    rw [Document.removeAll]
    split
    · rename_i d' hr
      obtain ⟨gone, hgone⟩ := h.remove hr
      obtain ⟨gone', hgone'⟩ :=
        removeAll ids (h.of_loses hgone (Stray.bare_kept.remove_strays h.bare hr))
      exact ⟨_, hgone.trans hgone'⟩
    · exact ⟨[], .refl d⟩

end Housed

/-- The identity that an edit gives to a new node. Below a dead node one is added too. -/
def handsOut? (d : Document) : Edit → Option NodeId
  | .appendChild .. => some ⟨d.slots.next⟩
  | .insertBefore before .. =>
    if d.contains before && !d.isTop before then some ⟨d.slots.next⟩ else none
  | _ => none

theorem toBool_insertBefore (d : Document) (before : NodeId) (l : Label) :
    (d.insertBefore before l).toBool = (d.contains before && !d.isTop before) := by
  unfold insertBefore
  cases d.isTop before <;> cases d.contains before <;> rfl

/-- An edit adds one node or removes some. -/
theorem Housed.edit_cases (h : d.Housed) : ∀ e : Edit,
    d.handsOut? e = some ⟨d.slots.next⟩ ∧ d.Gains (d.edit e) ∨
      d.handsOut? e = none ∧ ∃ gone, d.Loses (d.edit e) gone
  | .appendChild parent kind name value => .inl ⟨rfl, h.appendChild parent _⟩
  | .insertBefore before kind name value => by
    rw [Document.edit, handsOut?, ← toBool_insertBefore d before (.plain kind name value)]
    rcases hi : d.insertBefore before (.plain kind name value) with cause | p
    · exact .inr ⟨rfl, [], .refl d⟩
    · exact .inl ⟨rfl, h.insertBefore hi⟩
  | .remove id => by
    rw [Document.edit]
    refine .inr ⟨rfl, ?_⟩
    rcases hr : d.remove id with cause | d'
    · exact ⟨[], .refl d⟩
    · exact h.remove hr
  | .removeChildren id => by
    rw [Document.edit, Document.removeChildren]
    refine .inr ⟨rfl, ?_⟩
    split
    · exact removeAll _ h
    · exact ⟨[], .refl d⟩
  | .setName id name => .inr ⟨rfl, [], relabel_getD id _⟩
  | .setValue id value => .inr ⟨rfl, [], relabel_getD id _⟩
  | .appendAttribute id name value => .inr ⟨rfl, [], relabel_getD id _⟩
  | .removeAttribute id name => by
    rw [Document.edit, Document.removeAttribute]
    refine .inr ⟨rfl, [], ?_⟩
    rcases d.subtree id with cause | t
    · exact .refl d
    · rcases hr : d.relabel id fun l => l.dropAttribute name with cause | d'
      · exact .refl d
      · exact relabel hr

theorem Housed.edit (h : d.Housed) (e : Edit) : (d.edit e).Housed := by
  have hb := Stray.bare_kept.edit_strays h.bare e
  rcases h.edit_cases e with ⟨-, hg⟩ | ⟨-, gone, hl⟩
  · refine ⟨?_, hb⟩
    unfold Slots.Holds
    rw [hg.slots]
    exact ((hg.ids.map _).append_right _).trans h.slots.advance
  · exact h.of_loses hl hb

/-- After any edits to a document, whether they fail or not, each slot that was opened holds one
live node or is vacant. -/
theorem housed_edits : ∀ (es : List Edit) {d : Document}, d.Housed → (es.foldl edit d).Housed
  | [], _, h => h
  | e :: es, _, h => housed_edits es (h.edit e)

end Document

end Treegram
