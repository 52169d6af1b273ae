import Treegram.Proofs.Views

/-!
# What an edit does, and what it leaves alone

An edit of a live node changes what is told of that node, of those it adds and of those it frees,
and of the node above a place that it changes; of no other node anything else is told than before
(`edits_exact`). What is freed with a node is what is met going down from it.

Each of these edits is a change at a spot, which holds other siblings then.
-/

namespace Treegram

/-! ## Effects -/

/-- Whether `child` is one of the children that are told of `parent`. -/
def ChildIn (v : NodeId → Option NodeView) (parent child : NodeId) : Prop :=
  ∃ n, v parent = some n ∧ child ∈ n.children

/-- Whether the trees of a forest were added behind the children of `parent`. -/
structure Grafts (v v' : NodeId → Option NodeView) (parent : NodeId) (f : Forest Node) :
    Prop where
  fresh : ∀ k ∈ f.ids, v k = none
  new : ∀ k ∈ f.ids, v' k = f.view? k (some parent)
  above : ∃ p, v parent = some p ∧ v' parent = some { p with children := p.children ++ f.tops }
  other : ∀ k, k ∉ f.ids → k ≠ parent → v' k = v k

/-- Whether a node was added behind the children of `parent`. -/
structure Appends (v v' : NodeId → Option NodeView) (parent id : NodeId) (l : Label) : Prop where
  fresh : v id = none
  new : v' id = some ⟨l, some parent, []⟩
  above : ∃ p, v parent = some p ∧ v' parent = some { p with children := p.children ++ [id] }
  other : ∀ k, k ≠ id → k ≠ parent → v' k = v k

/-- Whether a node was added right before the node `before`, a child of `parent`. -/
structure Precedes (v v' : NodeId → Option NodeView) (parent before id : NodeId) (l : Label) :
    Prop where
  fresh : v id = none
  new : v' id = some ⟨l, some parent, []⟩
  below : ∃ b, v before = some b ∧ b.parent = some parent
  above : ∃ p front back, v parent = some p ∧ p.children = front ++ before :: back ∧
    v' parent = some { p with children := front ++ id :: before :: back }
  other : ∀ k, k ≠ id → k ≠ parent → v' k = v k

/-- Whether the nodes of a list, those to which `r` leads from `id`, were alive and are dead. -/
structure Frees (v v' : NodeId → Option NodeView) (r : NodeId → NodeId → Prop) (id : NodeId)
    (gone : List NodeId) : Prop where
  nodup : gone.Nodup
  mem_iff : ∀ k, k ∈ gone ↔ r id k
  freed : ∀ k ∈ gone, (v k).isSome ∧ v' k = none

/-- Whether the node `id` was taken from the children of `parent` and freed with all below it. -/
structure Removes (v v' : NodeId → Option NodeView) (parent id : NodeId) (gone : List NodeId) :
    Prop where
  frees : Frees v v' (Relation.ReflTransGen (ChildIn v)) id gone
  below : ∃ n, v id = some n ∧ n.parent = some parent
  above : ∃ p front back, v parent = some p ∧ p.children = front ++ id :: back ∧
    id ∉ front ++ back ∧ v' parent = some { p with children := front ++ back }
  other : ∀ k, k ∉ gone → k ≠ parent → v' k = v k

/-- Whether all that was below the node `id` was freed. -/
structure Empties (v v' : NodeId → Option NodeView) (id : NodeId) (gone : List NodeId) :
    Prop where
  frees : Frees v v' (Relation.TransGen (ChildIn v)) id gone
  self : ∃ n, v id = some n ∧ v' id = some { n with children := [] }
  other : ∀ k, k ∉ gone → k ≠ id → v' k = v k

namespace Spot

variable {front kids back : Forest Node} {s : Spot} {n : Node} {id p : NodeId} {l : Label}

/-! ## Going down -/

/-- All nodes at and below a spot are reached from the node above it. -/
theorem transGen_of_mem : ∀ {f front : Forest Node} {s : Spot} {p : NodeId},
    (s.fill (front ++ f)).ids.Nodup → s.parent? = some p → id ∈ f.ids →
      Relation.TransGen (ChildIn (s.fill (front ++ f)).view) p id
  | .cons m below rest, front, s, p, h, hp, hid => by
    have hchild : ChildIn (s.fill (front ++ .cons m below rest)).view p m.id := by
      obtain ⟨v, hv, hchildren, -⟩ := view?_fill_parent h h hp
      exact ⟨v, hv, by rw [hchildren, Forest.tops_append, Forest.tops]; simp⟩
    rw [Forest.ids_cons, List.mem_cons, List.mem_append] at hid
    rcases hid with rfl | hid | hid
    · exact .single hchild
    · have hdown : Relation.TransGen
          (ChildIn ((Spot.under m front rest s).fill (.nil ++ below)).view) m.id id :=
        transGen_of_mem h rfl hid
      exact .head hchild hdown
    · have hsplit : front ++ .cons m below rest = (front ++ .cons m below .nil) ++ rest :=
        (Forest.append_assoc front (.cons m below .nil) rest).symm
      rw [hsplit] at h ⊢
      exact transGen_of_mem h hp hid

/-- No others are. -/
theorem mem_of_transGen (h : (s.fill kids).ids.Nodup) (hp : s.parent? = some p)
    (hd : Relation.TransGen (ChildIn (s.fill kids).view) p id) : id ∈ kids.ids := by
  induction hd with
  | single hchild =>
    obtain ⟨v, hv, hid⟩ := hchild
    obtain ⟨w, hw, hchildren, -⟩ := view?_fill_parent h h hp
    obtain rfl := Option.some.inj (hw.symm.trans hv)
    rw [hchildren] at hid
    exact kids.tops_subset hid
  | tail _ hchild ih =>
    obtain ⟨v, hv, hid⟩ := hchild
    rw [Forest.view, view?_fill_of_mem h ih] at hv
    exact Forest.children_subset_of_view? hv hid

theorem mem_iff_transGen (h : (s.fill kids).ids.Nodup) (hp : s.parent? = some p) :
    id ∈ kids.ids ↔ Relation.TransGen (ChildIn (s.fill kids).view) p id := by
  refine ⟨fun hid => ?_, mem_of_transGen h hp⟩
  rw [← kids.nil_append] at h ⊢
  exact transGen_of_mem h hp hid

/-! ## Changes at a spot -/

theorem grafts {new : Forest Node} (h : (s.fill kids).ids.Nodup)
    (h' : (s.fill (kids ++ new)).ids.Nodup) (hp : s.parent? = some p) :
    Grafts (s.fill kids).view (s.fill (kids ++ new)).view p new := by
  obtain ⟨-, hd, hdisj⟩ := nodup_fill.1 h'
  rw [Forest.ids_append, List.nodup_append'] at hd
  obtain ⟨-, -, hkids⟩ := hd
  -- no identity comes twice behind the change, so the new ones did not come up before it
  have hfresh : ∀ k ∈ new.ids, k ∉ (s.fill kids).ids := fun k hk hmem => by
    rcases mem_ids_fill.1 hmem with hmem | hmem
    · exact hdisj k hmem (by rw [Forest.ids_append]; exact List.mem_append_right _ hk)
    · exact hkids hmem hk
  obtain ⟨v, hv, hchildren, hv'⟩ := view?_fill_parent h h' hp
  rw [Forest.tops_append, ← hchildren] at hv'
  refine ⟨fun k hk => Forest.view?_of_not_mem (hfresh k hk), fun k hk => ?_, ⟨v, hv, hv'⟩,
    fun k hk hkp => view?_fill_kept h h' ?_ ?_⟩
  · have hmem : k ∈ (kids ++ new).ids := by
      rw [Forest.ids_append]
      exact List.mem_append_right _ hk
    rw [Forest.view, view?_fill_of_mem h' hmem, Forest.view?_append,
      Forest.view?_of_not_mem fun hmem => hkids hmem hk, Option.none_or, hp]
  · exact fun heq => hkp (Option.some.inj (heq.symm.trans hp))
  · rw [Forest.view?_append, Forest.view?_of_not_mem hk, Option.or_none]

theorem appends (h : (s.fill kids).ids.Nodup)
    (h' : (s.fill (kids ++ .cons ⟨id, l⟩ .nil .nil)).ids.Nodup) (hp : s.parent? = some p) :
    Appends (s.fill kids).view (s.fill (kids ++ .cons ⟨id, l⟩ .nil .nil)).view p id l := by
  obtain ⟨hfresh, hnew, habove, hother⟩ := grafts h h' hp
  refine ⟨hfresh id (by simp), ?_, habove, fun k hk => hother k (by simpa using hk)⟩
  rw [hnew id (by simp), Forest.view?, if_pos rfl]
  rfl

theorem precedes (h : (s.fill (front ++ .cons n kids back)).ids.Nodup)
    (h' : (s.fill (front ++ .cons ⟨id, l⟩ .nil (.cons n kids back))).ids.Nodup)
    (hid : id ∉ (s.fill (front ++ .cons n kids back)).ids) (hp : s.parent? = some p) :
    Precedes (s.fill (front ++ .cons n kids back)).view
      (s.fill (front ++ .cons ⟨id, l⟩ .nil (.cons n kids back))).view p n.id id l := by
  obtain ⟨v, hv, hchildren, hv'⟩ := view?_fill_parent h h' hp
  rw [Forest.tops_append] at hchildren hv'
  refine ⟨Forest.view?_of_not_mem hid, ?_, ⟨_, view?_fill_node h, hp⟩,
    ⟨v, front.tops, back.tops, hv, hchildren, hv'⟩, fun k hk hkp => view?_fill_kept h h' ?_ ?_⟩
  · rw [Forest.view, view?_fill_node h', hp]
    rfl
  · exact fun heq => hkp (Option.some.inj (heq.symm.trans hp))
  · rw [Forest.view?_append, Forest.view?_append, Forest.view?, if_neg (Ne.symm hk), Forest.view?,
      Option.none_or]

theorem removes (h : (s.fill (front ++ .cons n kids back)).ids.Nodup) (hp : s.parent? = some p) :
    Removes (s.fill (front ++ .cons n kids back)).view (s.fill (front ++ back)).view p n.id
      (Tree.ids ⟨n, kids⟩) := by
  have hperm := LinkedDocument.ids_erase s n front kids back
  obtain ⟨hnodup, h', hdisj⟩ := List.nodup_append'.1 (hperm.nodup_iff.1 h)
  obtain ⟨v, hv, hchildren, hv'⟩ := view?_fill_parent h h' hp
  rw [Forest.tops_append] at hchildren hv'
  refine ⟨⟨hnodup, fun k => ?_, fun k hk => ⟨?_, ?_⟩⟩, ⟨_, view?_fill_node h, hp⟩,
    ⟨v, front.tops, back.tops, hv, hchildren, ?_, hv'⟩, fun k hk hkp => view?_fill_kept h h' ?_ ?_⟩
  · rw [Relation.reflTransGen_iff_eq_or_transGen, Tree.ids, List.mem_cons]
    exact or_congr_right (mem_iff_transGen (s := .under n front back s) h rfl)
  · exact Forest.isSome_view?.2 (hperm.mem_iff.2 (List.mem_append_left _ hk))
  · exact Forest.view?_of_not_mem (hdisj hk)
  · rw [← Forest.tops_append]
    exact fun hmem => hdisj List.mem_cons_self
      (mem_ids_fill.2 (.inr ((front ++ back).tops_subset hmem)))
  · exact fun heq => hkp (Option.some.inj (heq.symm.trans hp))
  · simp only [Tree.ids, List.mem_cons, not_or] at hk
    rw [Forest.view?_append, Forest.view?_append, Forest.view?, if_neg (Ne.symm hk.1),
      Forest.view?_of_not_mem hk.2, Option.none_or]

theorem empties (h : (s.fill kids).ids.Nodup) (h' : (s.fill .nil).ids.Nodup)
    (hp : s.parent? = some p) : Empties (s.fill kids).view (s.fill .nil).view p kids.ids := by
  obtain ⟨-, hnodup, hdisj⟩ := nodup_fill.1 h
  obtain ⟨v, hv, -, hv'⟩ := view?_fill_parent h h' hp
  refine ⟨⟨hnodup, fun k => mem_iff_transGen h hp, fun k hk => ⟨?_, ?_⟩⟩, ⟨v, hv, hv'⟩,
    fun k hk hkp => view?_fill_kept h h' ?_ ?_⟩
  · exact Forest.isSome_view?.2 (mem_ids_fill.2 (.inr hk))
  · refine Forest.view?_of_not_mem fun hmem => ?_
    rcases mem_ids_fill.1 hmem with hmem | hmem
    · exact hdisj k hmem hk
    · simp at hmem
  · exact fun heq => hkp (Option.some.inj (heq.symm.trans hp))
  · rw [Forest.view?_of_not_mem hk]
    rfl

end Spot

/-! ## Effects of edits -/

theorem Document.appendChild_fst {d : Document} {id : NodeId} (h : d.contains id = true)
    (l : Label) : (d.appendChild id l).1 = .ok ⟨d.slots.next⟩ := by
  unfold appendChild graft
  rw [if_pos h]

theorem Document.removeChildren_fst {d : Document} {id : NodeId} {ids : List NodeId}
    (h : d.children id = .ok ids) (hlive : (d.removeChildren id).2.contains id = true) :
    (d.removeChildren id).1 = .ok () := by
  unfold removeChildren at hlive ⊢
  rw [h] at hlive ⊢
  exact if_pos hlive

namespace LinkedDocument

variable {c : LinkedDocument} {d : Document} {id : NodeId}

theorem Holds.nodeCount_fill (h : c.Holds d) {s : Spot} {f : Forest Node}
    (hf : d.forest = s.fill f) : d.nodeCount = s.ids.length + f.ids.length := by
  rw [h.nodeCount, hf, (s.ids_fill f).length_eq, List.length_append]

theorem Holds.appends (h : c.Holds d) (hp : d.contains id = true) (l : Label) :
    ∃ new c' d', c.appendChild id l = some (new, c') ∧ d.appendChild id l = (.ok new, d') ∧
      c'.Shows d' ∧ Appends d.view d'.view id new l ∧ d'.nodeCount = d.nodeCount + 1 := by
  obtain ⟨s, front, n, kids, back, rfl, hf⟩ := Spot.exists_fill ((h.contains id).1 hp)
  obtain ⟨c', hc', h'⟩ := h.appendChild ((h.contains n.id).1 hp) l
  have hf' := h.forest_appendChild hf l
  have hnodup := h.nodup
  have hnodup' := h'.nodup
  rw [hf] at hnodup
  rw [hf'] at hnodup'
  refine ⟨c.nextId, c', _, hc', Prod.ext ?_ rfl, h'.shows, ?_, ?_⟩
  · rw [Document.appendChild_fst hp, h.nextId]
  · rw [h.view, h'.view, hf, hf']
    exact Spot.appends (s := .under n front back s) hnodup hnodup' rfl
  · rw [h.nodeCount_fill hf, h'.nodeCount_fill hf']
    simp only [Forest.ids_append, Forest.ids_cons, Forest.ids_nil, List.length_append,
      List.length_cons, List.length_nil]
    omega

theorem Holds.precedes (h : c.Holds d) (hb : d.contains id = true) (hroot : id ≠ d.root)
    (l : Label) :
    ∃ p new c' d', c.insertBefore id l = some (new, c') ∧
      d.insertBefore id l = .ok (d', new) ∧ c'.Shows d' ∧
      Precedes d.view d'.view p id new l ∧ d'.nodeCount = d.nodeCount + 1 := by
  obtain ⟨s, front, n, kids, back, rfl, hf⟩ := Spot.exists_fill ((h.contains id).1 hb)
  obtain ⟨p, hp⟩ := Document.exists_parent hf hroot
  obtain ⟨c', d', hc', hd', h'⟩ := h.insertBefore ((h.contains n.id).1 hb) hroot l
  have hf' : d'.forest = _ := h.forest_insertBefore hf hroot hd'
  have hnew : c.nextId ∉ d.forest.ids := h.nextId_not_mem
  have hnodup := h.nodup
  have hnodup' := h'.nodup
  rw [hf] at hnodup hnew
  rw [hf'] at hnodup'
  refine ⟨p, c.nextId, c', d', hc', hd', h'.shows, ?_, ?_⟩
  · rw [h.view, h'.view, hf, hf']
    exact Spot.precedes hnodup hnodup' hnew hp
  · rw [h.nodeCount_fill hf, h'.nodeCount_fill hf']
    simp only [Forest.ids_append, Forest.ids_cons, Forest.ids_nil, List.length_append,
      List.length_cons, List.length_nil]
    omega

theorem Holds.removes (h : c.Holds d) (hid : d.contains id = true) (hroot : id ≠ d.root) :
    ∃ p gone c' d', c.remove id = some c' ∧ d.remove id = .ok d' ∧ c'.Shows d' ∧
      Removes d.view d'.view p id gone ∧ d'.nodeCount + gone.length = d.nodeCount := by
  obtain ⟨s, front, n, kids, back, rfl, hf⟩ := Spot.exists_fill ((h.contains id).1 hid)
  obtain ⟨p, hp⟩ := Document.exists_parent hf hroot
  obtain ⟨c', d', hc', hd', h', hf'⟩ := h.remove hf hroot
  have hnodup := h.nodup
  rw [hf] at hnodup
  refine ⟨p, Tree.ids ⟨n, kids⟩, c', d', hc', hd', h'.shows, ?_, ?_⟩
  · rw [h.view, h'.view, hf, hf']
    exact Spot.removes hnodup hp
  · rw [h.nodeCount, h'.nodeCount, hf, hf', (ids_erase s n front kids back).length_eq,
      List.length_append, Nat.add_comm]

theorem Holds.empties (h : c.Holds d) (hid : d.contains id = true) :
    ∃ gone c' d', c.removeChildren id = some c' ∧ d.removeChildren id = (.ok (), d') ∧
      c'.Shows d' ∧ Empties d.view d'.view id gone ∧
        d'.nodeCount + gone.length = d.nodeCount := by
  obtain ⟨s, front, n, kids, back, rfl, hf⟩ := Spot.exists_fill ((h.contains id).1 hid)
  obtain ⟨c', hc', h', hf'⟩ := h.removeChildren hf
  have hnodup := h.nodup
  have hnodup' := h'.nodup
  rw [hf] at hnodup
  rw [hf'] at hnodup'
  refine ⟨kids.ids, c', _, hc', Prod.ext ?_ rfl, h'.shows, ?_, ?_⟩
  · refine Document.removeChildren_fst (h.children hf) ((h'.contains _).2 ?_)
    rw [hf', Spot.mem_ids_fill]
    simp
  · rw [h.view, h'.view, hf, hf']
    exact Spot.empties (s := .under n front back s) hnodup hnodup' rfl
  · rw [h.nodeCount_fill hf, h'.nodeCount_fill hf']
    simp only [Forest.ids_append, Forest.ids_cons, Forest.ids_nil, List.length_append,
      List.length_cons, List.length_nil]
    omega

/-- Whether each edit of a live node, or of one that has a place among others, succeeds and has its
effect, on the document as on the linked nodes. -/
structure EditsExactly (c : LinkedDocument) (d : Document) : Prop where
  shows : c.Shows d
  appendChild (p : NodeId) (kind : NodeKind) (name value : String) : d.contains p = true →
    ∃ new c' d', c.appendChild p (.plain kind name value) = some (new, c') ∧
      d.appendChild p (.plain kind name value) = (.ok new, d') ∧ c'.Shows d' ∧
      Appends d.view d'.view p new ⟨kind, name, value, []⟩ ∧ d'.nodeCount = d.nodeCount + 1
  insertBefore (b : NodeId) (kind : NodeKind) (name value : String) : d.contains b = true →
    b ≠ d.root → ∃ p new c' d', c.insertBefore b (.plain kind name value) = some (new, c') ∧
      d.insertBefore b (.plain kind name value) = .ok (d', new) ∧ c'.Shows d' ∧
      Precedes d.view d'.view p b new ⟨kind, name, value, []⟩ ∧ d'.nodeCount = d.nodeCount + 1
  remove (n : NodeId) : d.contains n = true → n ≠ d.root →
    ∃ p gone c' d', c.remove n = some c' ∧ d.remove n = .ok d' ∧ c'.Shows d' ∧
      Removes d.view d'.view p n gone ∧ d'.nodeCount + gone.length = d.nodeCount
  removeChildren (n : NodeId) : d.contains n = true →
    ∃ gone c' d', c.removeChildren n = some c' ∧ d.removeChildren n = (.ok (), d') ∧
      c'.Shows d' ∧ Empties d.view d'.view n gone ∧ d'.nodeCount + gone.length = d.nodeCount

/-- Whatever was done before to nodes that live, an edit does what it says and nothing else. -/
theorem edits_exact (es : List Edit) (h : Document.empty.acceptsAll es = true) :
    ∃ c, empty.run es = some c ∧ c.EditsExactly (es.foldl Document.edit .empty) := by
  obtain ⟨c, hc, hholds⟩ := holds_empty.run h
  refine ⟨c, hc, hholds.shows, ?_, ?_, ?_, ?_⟩
  · exact fun p kind name value hp => hholds.appends hp _
  · exact fun b kind name value hb hroot => hholds.precedes hb hroot _
  · exact fun n hn hroot => hholds.removes hn hroot
  · exact fun n hn => hholds.empties hn

/-- The node that is removed has one before it and another below it. -/
theorem edits_exact_reuse : Document.empty.acceptsAll reuse = true ∧
    (reuse.foldl Document.edit .empty).view ⟨0⟩ = some ⟨.document, none, [⟨2⟩, ⟨3⟩]⟩ ∧
    (reuse.foldl Document.edit .empty).view ⟨3⟩ = some ⟨.element "d" "", some ⟨0⟩, [⟨1⟩]⟩ ∧
    ∃ c, empty.run reuse = some c ∧ c.EditsExactly (reuse.foldl Document.edit .empty) :=
  ⟨by decide, rfl, rfl, edits_exact reuse (by decide)⟩

end LinkedDocument

end Treegram
