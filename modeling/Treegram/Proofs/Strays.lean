import Treegram.Document.Linked
import Treegram.Proofs.Spots

/-!
# Children that are added

A node that gets trees below it has them behind the children it had (`subtree?_graft`), wherever it
lives. A stray that is its own parent has to stand among its own children for that (`Sound`), and
does so after any edit: what the operations on strays keep holds of all strays after any edit
(`Stray.Kept.edit_strays`).
-/

namespace Treegram

namespace Forest

variable {id own : NodeId} {new : Forest Node}

@[simp] theorem tops_append (g : Forest Node) : ∀ f : Forest Node, (f ++ g).tops = f.tops ++ g.tops
  | .nil => rfl
  | .cons n _ rest => congrArg (n.id :: ·) (tops_append g rest)

theorem tops_relabel (g : Label → Label) : ∀ f : Forest Node, (f.relabel id g).tops = f.tops
  | .nil => rfl
  | .cons n kids rest => by
    have ih := tops_relabel g rest
    unfold relabel at ih ⊢
    rw [map, tops, tops, ih]
    split <;> rfl

theorem tops_graft : ∀ f : Forest Node, (graft id new f).tops = f.tops
  | .nil => rfl
  | .cons n kids rest => by
    rw [graft]
    split
    · rfl
    · rw [tops, tops, tops_graft rest]

theorem mem_tops_insertBefore : ∀ {f : Forest Node}, own ∈ f.tops →
    own ∈ (insertBefore id new f).tops
  | .cons n kids rest, h => by
    rw [insertBefore]
    split
    · rw [tops_append]
      exact List.mem_append_right _ h
    · rw [tops, List.mem_cons] at h ⊢
      exact h.imp_right mem_tops_insertBefore

theorem mem_tops_erase (hne : own ≠ id) : ∀ {f : Forest Node}, own ∈ f.tops →
    own ∈ (f.erase id).tops
  | .cons n kids rest, h => by
    rw [tops, List.mem_cons] at h
    rw [erase]
    split
    · rename_i hn
      exact h.resolve_left (hn ▸ hne)
    · rw [tops, List.mem_cons]
      exact h.imp_right (mem_tops_erase hne)

theorem exists_subtree?_of_mem_tops : ∀ {f : Forest Node}, id ∈ f.tops →
    ∃ t, f.subtree? id = some t
  | .cons n kids rest, h => by
    rw [tops, List.mem_cons] at h
    unfold subtree?
    rw [find?]
    split
    · exact ⟨_, rfl⟩
    · rename_i hn
      split
      · exact ⟨_, rfl⟩
      · exact exists_subtree?_of_mem_tops (h.resolve_left fun heq => hn (by simp [heq]))

theorem subtree?_append_of_eq_some {g : Forest Node} {t : Tree Node} :
    ∀ {f : Forest Node}, f.subtree? id = some t → (f ++ g).subtree? id = some t
  | .cons n kids rest, h => by
    rw [cons_append]
    unfold subtree? at h ⊢
    rw [find?] at h ⊢
    by_cases hn : (n.id == id) = true
    · rw [if_pos hn] at h ⊢
      exact h
    · rw [if_neg hn] at h ⊢
      rcases hk : kids.find? fun n => n.id == id with _ | u <;> rw [hk] at h ⊢
      · exact subtree?_append_of_eq_some h
      · exact h

theorem subtree?_graft (id : NodeId) (new : Forest Node) : ∀ f : Forest Node,
    (graft id new f).subtree? id =
      (f.subtree? id).map fun t => { t with children := t.children ++ new }
  | .nil => rfl
  | .cons n kids rest => by
    have ihk := subtree?_graft id new kids
    have ihr := subtree?_graft id new rest
    unfold subtree? at ihk ihr ⊢
    rw [graft, find?]
    split
    · rename_i hn
      rw [find?, if_pos (by simpa using hn), if_pos (by simpa using hn)]
      rfl
    · rename_i hn
      rw [find?, if_neg (by simpa using hn), if_neg (by simpa using hn), ihk, ihr]
      cases kids.find? fun n => n.id == id <;> rfl

end Forest

theorem Tree.find?_graft (id : NodeId) (new : Forest Node) (t : Tree Node) :
    (t.graft id new).find? (fun n => n.id == id) =
      (t.find? fun n => n.id == id).map fun t => { t with children := t.children ++ new } := by
  unfold graft find?
  by_cases hn : t.node.id = id
  · simp [hn]
  · have := Forest.subtree?_graft id new t.children
    unfold Forest.subtree? at this
    simp [hn, this]

/-! ## What edits keep -/

/-- Whether edits keep what holds of each stray. -/
structure Stray.Kept (P : Stray → Prop) : Prop where
  lost (t : Tree Node) : P (lost t)
  looped (n : Node) : P (looped n.id (.cons n .nil .nil))
  relabel {s : Stray} (id : NodeId) (g : Label → Label) : P s → P (s.relabel id g)
  graft {s : Stray} (id : NodeId) (new : Forest Node) : P s → P (s.graft id new)
  insertBefore {s : Stray} (id : NodeId) (new : Forest Node) : P s → P (s.insertBefore id new)
  /-- A stray is freed as a whole or loses a part. -/
  erase {s : Stray} {id : NodeId} : P s → s.whole? id = none → P (s.erase id)

namespace Stray.Kept

variable {P : Stray → Prop} (hP : Kept P) {d d' : Document} {id : NodeId}
  (h : ∀ s ∈ d.strays, P s)

include hP h

theorem graft_strays {f : Forest Label} (hg : d.graft id f = .ok d') : ∀ s ∈ d'.strays, P s := by
  unfold Document.graft at hg
  split at hg
  · rw [← Except.ok.inj hg]
    exact List.forall_mem_map.2 fun s hs => hP.graft id _ (h s hs)
  · simp at hg

theorem relabel_strays {g : Label → Label} (hr : d.relabel id g = .ok d') :
    ∀ s ∈ d'.strays, P s := by
  unfold Document.relabel at hr
  split at hr
  · rw [← Except.ok.inj hr]
    exact List.forall_mem_map.2 fun s hs => hP.relabel id g (h s hs)
  · simp at hr

theorem relabel_getD_strays (id : NodeId) (g : Label → Label) :
    ∀ s ∈ ((d.relabel id g).toOption.getD d).strays, P s := by
  rcases hr : d.relabel id g with cause | d'
  · exact h
  · exact hP.relabel_strays h hr

theorem appendChild_strays (parent : NodeId) (l : Label) :
    ∀ s ∈ (d.appendChild parent l).2.strays, P s := by
  unfold Document.appendChild
  rcases hg : d.graft parent (.cons l .nil .nil) with cause | d'
  · dsimp only
    split
    · exact List.forall_mem_cons.2 ⟨hP.looped ⟨⟨d.slots.next⟩, l⟩, h⟩
    · exact List.forall_mem_cons.2 ⟨hP.lost _, h⟩
  · exact hP.graft_strays h hg

theorem insertBefore_strays {l : Label} {p : Document × NodeId}
    (hi : d.insertBefore id l = .ok p) : ∀ s ∈ p.1.strays, P s := by
  unfold Document.insertBefore at hi
  split at hi
  · simp at hi
  · split at hi
    · rw [← Except.ok.inj hi]
      exact List.forall_mem_map.2 fun s hs => hP.insertBefore id _ (h s hs)
    · simp at hi

theorem remove_strays (hr : d.remove id = .ok d') : ∀ s ∈ d'.strays, P s := by
  unfold Document.remove at hr
  split at hr
  · simp at hr
  · split at hr
    · rw [← Except.ok.inj hr]
      exact fun s hs => h s (List.mem_of_mem_filter hs)
    · rename_i hwhole
      rw [List.findSome?_eq_none_iff] at hwhole
      split at hr
      · rw [← Except.ok.inj hr]
        exact List.forall_mem_map.2 fun s hs => hP.erase (h s hs) (hwhole s hs)
      · simp at hr

omit h in
theorem removeAll_strays : ∀ (ids : List NodeId) {d : Document}, (∀ s ∈ d.strays, P s) →
    ∀ s ∈ (d.removeAll ids).strays, P s
  | [], _, h => h
  | id :: ids, d, h => by
    rw [Document.removeAll]
    split
    · rename_i hr
      exact removeAll_strays ids (hP.remove_strays h hr)
    · exact h

theorem edit_strays : ∀ e : Edit, ∀ s ∈ (d.edit e).strays, P s
  | .appendChild parent kind name value => hP.appendChild_strays h parent _
  | .insertBefore before kind name value => by
    rw [Document.edit]
    split
    · rename_i hi
      exact hP.insertBefore_strays h hi
    · exact h
  | .remove id => by
    rw [Document.edit]
    rcases hr : d.remove id with cause | d'
    · exact h
    · exact hP.remove_strays h hr
  | .removeChildren id => by
    rw [Document.edit, Document.removeChildren]
    split
    · exact hP.removeAll_strays _ h
    · exact h
  | .setName id name => hP.relabel_getD_strays h id _
  | .setValue id value => hP.relabel_getD_strays h id _
  | .appendAttribute id name value => hP.relabel_getD_strays h id _
  | .removeAttribute id name => by
    rw [Document.edit, Document.removeAttribute]
    rcases d.subtree id with cause | t
    · exact h
    · rcases hr : d.relabel id fun l => l.dropAttribute name with cause | d'
      · exact h
      · exact hP.relabel_strays h hr

end Stray.Kept

/-! ## Nodes that are their own parents -/

/-- Whether a stray that is its own parent stands among its children. -/
def Stray.Sound : Stray → Prop
  | lost _ => True
  | looped own siblings => own ∈ siblings.tops

def Document.Sound (d : Document) : Prop :=
  ∀ s ∈ d.strays, s.Sound

namespace Stray

variable {s : Stray} (id : NodeId)

theorem Sound.relabel (h : s.Sound) (g : Label → Label) : (s.relabel id g).Sound := by
  cases s with
  | lost t => trivial
  | looped own siblings => rwa [Stray.relabel, Sound, Forest.tops_relabel]

theorem Sound.graft (h : s.Sound) (new : Forest Node) : (s.graft id new).Sound := by
  cases s with
  | lost t => trivial
  | looped own siblings =>
    rw [Stray.graft, Sound]
    split
    · rw [Forest.tops_append]
      exact List.mem_append_left _ h
    · rwa [Forest.tops_graft]

theorem Sound.insertBefore (h : s.Sound) (new : Forest Node) :
    (s.insertBefore id new).Sound := by
  cases s with
  | lost t => trivial
  | looped own siblings => exact Forest.mem_tops_insertBefore h

/-- A stray that is its own parent is freed with its own node. -/
theorem ne_of_whole?_eq_none {id own : NodeId} {siblings : Forest Node} {t : Tree Node}
    (ht : siblings.subtree? own = some t) (hw : (looped own siblings).whole? id = none) :
    own ≠ id := by
  rintro rfl
  simp [whole?, ht] at hw

theorem Sound.erase {id : NodeId} (h : s.Sound) (hw : s.whole? id = none) : (s.erase id).Sound := by
  cases s with
  | lost t => trivial
  | looped own siblings =>
    obtain ⟨t, ht⟩ := Forest.exists_subtree?_of_mem_tops h
    exact Forest.mem_tops_erase (ne_of_whole?_eq_none ht hw) h

theorem Sound.subtree?_graft (h : s.Sound) (new : Forest Node) :
    (s.graft id new).subtree? id =
      (s.subtree? id).map fun t => { t with children := t.children ++ new } := by
  cases s with
  | lost t => exact t.find?_graft id new
  | looped own siblings =>
    rw [Stray.graft, Stray.subtree?, Stray.subtree?]
    by_cases hid : id = own
    · subst hid
      obtain ⟨t, ht⟩ := Forest.exists_subtree?_of_mem_tops h
      simp [Forest.subtree?_append_of_eq_some ht, ht]
    · simp [hid, Forest.subtree?_graft, Option.map_map, Function.comp_def]

theorem sound_kept : Kept Sound where
  lost _ := trivial
  looped _ := List.mem_singleton_self _
  relabel id g h := h.relabel id g
  graft id new h := h.graft id new
  insertBefore id new h := h.insertBefore id new
  erase h hw := h.erase hw

end Stray

/-! ## Documents -/

namespace Document

variable {d d' : Document} {id : NodeId}

theorem sound_empty : empty.Sound := by
  simp [Sound, empty]

theorem findSome?_graft {new : Forest Node} : ∀ {strays : List Stray}, (∀ s ∈ strays, s.Sound) →
    (strays.map (Stray.graft id new)).findSome? (Stray.subtree? id) =
      (strays.findSome? (Stray.subtree? id)).map fun t => { t with children := t.children ++ new }
  | [], _ => rfl
  | s :: strays, h => by
    rw [List.forall_mem_cons] at h
    rw [List.map_cons, List.findSome?_cons, List.findSome?_cons, h.1.subtree?_graft,
      findSome?_graft h.2]
    cases s.subtree? id <;> rfl

/-- A node that gets trees below it has them behind the children it had. -/
theorem Sound.subtree?_graft (h : d.Sound) {f : Forest Label} (hg : d.graft id f = .ok d') :
    d'.subtree? id = (d.subtree? id).map fun t =>
      { t with children := t.children ++ (number d.slots f).1 } := by
  unfold Document.graft at hg
  split at hg
  · rw [← Except.ok.inj hg]
    unfold Document.subtree?
    rw [Tree.find?_graft, findSome?_graft h]
    cases d.tree.find? fun n => n.id == id <;> rfl
  · simp at hg

end Document

end Treegram
