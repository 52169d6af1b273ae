import Treegram.Document.Linked
import Treegram.Proofs.Spots

/-!
# Trees of linked nodes

Nodes in their slots are the nodes of a forest if each has the links its place gives it (`Joined`).
Whether they are can be told spot by spot (`joined_fill`), so a change to the links next to a spot
is right there if it is right among the siblings.
-/

namespace Treegram

variable {get get' : NodeId → Option LinkedNode} {f g front back kids : Forest Node} {n : Node}
  {parent previous next first last : Option NodeId}

/-- Whether the nodes of a forest are there and linked as in it: the siblings at its top to
`parent`, the first of them to `previous` and the last of them to `next`. -/
def Joined (get : NodeId → Option LinkedNode) (parent previous next : Option NodeId) :
    Forest Node → Prop
  | .nil => True
  | .cons n kids rest =>
    get n.id = some ⟨n.label,
      ⟨parent, previous, rest.firstId?.or next, kids.firstId?, kids.lastId?⟩⟩ ∧
    Joined get (some n.id) none none kids ∧ Joined get parent (some n.id) next rest

theorem joined_append : ∀ {f : Forest Node} {previous : Option NodeId},
    Joined get parent previous next (f ++ g) ↔
      Joined get parent previous (g.firstId?.or next) f ∧
        Joined get parent (f.lastId?.or previous) next g
  | .nil, previous => by simp [Joined, Forest.lastId?]
  | .cons n kids rest, previous => by
    rw [Forest.cons_append, Joined, Joined, joined_append, Forest.firstId?_append,
      Option.or_assoc, Forest.lastId?_cons, Option.or_assoc, Option.some_or]
    tauto

/-- What other nodes are does not matter. -/
theorem Joined.congr : ∀ {f : Forest Node} {parent previous next : Option NodeId},
    Joined get parent previous next f → (∀ id ∈ f.ids, get' id = get id) →
      Joined get' parent previous next f
  | .nil, _, _, _, _, _ => trivial
  | .cons n kids rest, _, _, _, ⟨hn, hkids, hrest⟩, h => by
    simp only [Forest.ids_cons, List.mem_cons, List.mem_append] at h
    exact ⟨(h _ (Or.inl rfl)).trans hn, hkids.congr fun id hid => h id (Or.inr (Or.inl hid)),
      hrest.congr fun id hid => h id (Or.inr (Or.inr hid))⟩

/-! ## Around a spot -/

/-- Whether the nodes around a spot are linked, the one above it to the siblings `first` and
`last`. -/
def Spot.Around (get : NodeId → Option LinkedNode) (first last : Option NodeId) : Spot → Prop
  | .top => True
  | .under n front back above =>
    get n.id = some ⟨n.label, ⟨above.parent?, front.lastId?, back.firstId?, first, last⟩⟩ ∧
    Joined get above.parent? none (some n.id) front ∧
    Joined get above.parent? (some n.id) none back ∧
    above.Around get (front.firstId?.or (some n.id)) (back.lastId?.or (some n.id))

theorem joined_fill : ∀ {s : Spot} {f : Forest Node},
    Joined get none none none (s.fill f) ↔
      s.Around get f.firstId? f.lastId? ∧ Joined get s.parent? none none f
  | .top, f => by simp [Spot.fill, Spot.Around, Spot.parent?]
  | .under n front back above, f => by
    rw [Spot.fill, joined_fill, joined_append, Joined, Spot.Around, Forest.firstId?_append,
      Forest.lastId?_append, Forest.lastId?_cons, Option.or_assoc, Option.some_or]
    simp only [Forest.firstId?, Option.or_none]
    show _ ↔ _ ∧ Joined get (some n.id) none none f
    tauto

/-- Between siblings at a spot there is a gap, whose ends are linked to each other. -/
theorem Joined.gap {s : Spot} (h : Joined get none none none (s.fill (front ++ back))) :
    s.Around get (front.firstId?.or back.firstId?) (back.lastId?.or front.lastId?) ∧
      Joined get s.parent? none back.firstId? front ∧
      Joined get s.parent? front.lastId? none back := by
  rw [joined_fill, joined_append, Forest.firstId?_append, Forest.lastId?_append, Option.or_none,
    Option.or_none] at h
  exact h

/-- A node that stands among siblings at a spot has the links of its place, and is linked to from
all sides. -/
theorem Joined.at_node {s : Spot}
    (h : Joined get none none none (s.fill (front ++ .cons n kids back))) :
    s.Around get (front.firstId?.or (some n.id)) (back.lastId?.or (some n.id)) ∧
      Joined get s.parent? none (some n.id) front ∧
      get n.id = some ⟨n.label,
        ⟨s.parent?, front.lastId?, back.firstId?, kids.firstId?, kids.lastId?⟩⟩ ∧
      Joined get (some n.id) none none kids ∧ Joined get s.parent? (some n.id) none back := by
  obtain ⟨haround, hfront, hback⟩ := h.gap
  rw [Forest.lastId?_cons, Option.or_assoc, Option.some_or] at haround
  obtain ⟨hn, hkids, hback⟩ := hback
  rw [Option.or_none] at hn
  exact ⟨haround, hfront, hn, hkids, hback⟩

theorem Spot.Around.congr : ∀ {s : Spot} {first last : Option NodeId},
    s.Around get first last → (∀ id ∈ s.ids, get' id = get id) → s.Around get' first last
  | .top, _, _, _, _ => trivial
  | .under n front back above, _, _, ⟨hn, hfront, hback, habove⟩, h => by
    simp only [Spot.ids, List.mem_cons, List.mem_append] at h
    exact ⟨(h _ (Or.inl rfl)).trans hn, hfront.congr fun id hid => h id (by tauto),
      hback.congr fun id hid => h id (by tauto), habove.congr fun id hid => h id (by tauto)⟩

namespace LinkedDocument

variable {d : LinkedDocument} {s : Spot} {id : NodeId}

/-- Whether two documents differ in links only. -/
structure Relinked (d d' : LinkedDocument) : Prop where
  root : d'.root = d.root
  slots : d'.nodes.slots = d.nodes.slots
  live : ∀ id, (d'.get? id).isSome = (d.get? id).isSome

theorem Relinked.trans {d d' d'' : LinkedDocument} (h : d.Relinked d') (h' : d'.Relinked d'') :
    d.Relinked d'' where
  root := h'.root.trans h.root
  slots := h'.slots.trans h.slots
  live id := (h'.live id).trans (h.live id)

theorem modify?_of_get? {x : LinkedNode} (h : d.get? id = some x) (f : LinkedNode → LinkedNode) :
    ∃ d', d.modify? id f = some d' ∧ d.Relinked d' ∧
      ∀ j, d'.get? j = if j = id then some (f x) else d.get? j := by
  obtain ⟨a, ha, hslots, hget⟩ := Arena.modify?_of_get? h f
  have hget' : ∀ j, ({ d with nodes := a } : LinkedDocument).get? j =
      if j = id then some (f x) else d.get? j := by
    rintro ⟨j⟩
    rcases id with ⟨k⟩
    simp only [get?, hget, NodeId.mk.injEq]
  refine ⟨{ d with nodes := a }, by rw [modify?, ha]; rfl, ⟨rfl, hslots, fun j => ?_⟩, hget'⟩
  rw [hget']
  split
  · rename_i hj
    rw [hj, h]
    rfl
  · rfl

theorem relink_of_get? {x : LinkedNode} (h : d.get? id = some x) (g : Links → Links) :
    ∃ d', d.relink id g = some d' ∧ d.Relinked d' ∧
      d'.get? id = some { x with links := g x.links } ∧ ∀ j ≠ id, d'.get? j = d.get? j := by
  obtain ⟨d', hd', hr, hget⟩ := modify?_of_get? h fun n => { n with links := g n.links }
  exact ⟨d', hd', hr, by rw [hget, if_pos rfl], fun j hj => by rw [hget, if_neg hj]⟩

theorem remove?_of_get? {x : LinkedNode} (h : d.get? id = some x) :
    ∃ a, d.nodes.remove? id.slot = some (x, a) ∧ a.slots = d.nodes.slots.vacate [id.slot] ∧
      ∀ j, ({ d with nodes := a } : LinkedDocument).get? j = if j = id then none else d.get? j := by
  obtain ⟨a, ha, hslots, hget⟩ := Arena.remove?_of_get? h
  refine ⟨a, ha, hslots, ?_⟩
  rintro ⟨j⟩
  rcases id with ⟨k⟩
  simp only [get?, hget, NodeId.mk.injEq]

/-- Whether the nodes around a spot and those of a list of siblings are all different. -/
structure Apart (s : Spot) (f : Forest Node) : Prop where
  spot : s.ids.Nodup
  forest : f.ids.Nodup
  disjoint : ∀ id ∈ s.ids, id ∉ f.ids

/-! ## The ends of a gap -/

/-- The node above a spot gets other links to what is below it. -/
theorem relink_above {above : Spot}
    (ha : (Spot.under n front back above).Around d.get? first last)
    (hd : (Spot.under n front back above).ids.Nodup) (g : Links → Links) {first' last' : Option NodeId}
    (hg : g ⟨above.parent?, front.lastId?, back.firstId?, first, last⟩ =
      ⟨above.parent?, front.lastId?, back.firstId?, first', last'⟩) :
    ∃ d', d.relink n.id g = some d' ∧ (Spot.under n front back above).Around d'.get? first' last' ∧
      d.Relinked d' ∧ ∀ id ∉ (Spot.under n front back above).ids, d'.get? id = d.get? id := by
  obtain ⟨hn, hfront, hback, habove⟩ := ha
  obtain ⟨d', hd', hr, hself, hother⟩ := relink_of_get? hn g
  simp only [Spot.ids, List.nodup_cons, List.mem_append, not_or] at hd
  refine ⟨d', hd', ⟨by rw [hself, hg], hfront.congr fun id hid => hother id ?_,
    hback.congr fun id hid => hother id ?_, habove.congr fun id hid => hother id ?_⟩, hr,
    fun id hid => hother id ?_⟩
  · rintro rfl
    exact hd.1.1.1 hid
  · rintro rfl
    exact hd.1.1.2 hid
  · rintro rfl
    exact hd.1.2 hid
  · rintro rfl
    exact hid List.mem_cons_self

/-- What stands in front of a gap at a spot gets another node behind it. -/
theorem setNext_spec (ha : s.Around d.get? (front.firstId?.or next) last)
    (hf : Joined d.get? s.parent? none next front) (hd : Apart s front) (new : Option NodeId) :
    ∃ d', d.setNext s.parent? front.lastId? new = some d' ∧
      s.Around d'.get? (front.firstId?.or new) last ∧ Joined d'.get? s.parent? none new front ∧
      d.Relinked d' ∧ ∀ id, id ∉ s.ids → id ∉ front.ids → d'.get? id = d.get? id := by
  -- the link is one of the last sibling in front, or if there is none, of the node above
  rcases front.eq_nil_or_concat with rfl | ⟨front, n, kids, rfl⟩
  · cases s with
    | top => exact ⟨d, rfl, trivial, trivial, ⟨rfl, rfl, fun _ => rfl⟩, fun _ _ _ => rfl⟩
    | under m before behind above =>
      obtain ⟨d', hd', ha', hr, hother⟩ :=
        relink_above ha hd.spot (fun l => { l with firstChild := new }) rfl
      exact ⟨d', hd', ha', trivial, hr, fun id hs _ => hother id hs⟩
  · obtain ⟨hfront, hn, hkids, -⟩ := joined_append.1 hf
    obtain ⟨d', hd', hr, hself, hother⟩ := relink_of_get? hn fun l => { l with next := new }
    obtain ⟨-, hforest, hdisj⟩ := hd
    simp only [Forest.ids_append, Forest.ids_cons, Forest.ids_nil, List.append_nil,
      List.nodup_append', List.nodup_cons, List.disjoint_cons_right] at hforest
    obtain ⟨-, ⟨hnkids, -⟩, hnfront, -⟩ := hforest
    have hlast : (front ++ .cons n kids .nil).lastId? = some n.id := by
      rw [Forest.lastId?_append]
      rfl
    have hfirst : ∀ x, (front ++ .cons n kids .nil).firstId?.or x =
        front.firstId?.or (some n.id) := by
      intro x
      rw [Forest.firstId?_append, Option.or_assoc]
      rfl
    rw [hlast]
    rw [hfirst] at ha ⊢
    refine ⟨d', hd', ha.congr fun id hid => hother id ?_, joined_append.2
      ⟨hfront.congr fun id hid => hother id ?_, hself, hkids.congr fun id hid => hother id ?_,
        trivial⟩, hr, fun id _ hid => hother id ?_⟩
    · rintro rfl
      exact hdisj _ hid (by simp)
    · rintro rfl
      exact hnfront hid
    · rintro rfl
      exact hnkids hid
    · rintro rfl
      exact hid (by simp)

/-- What stands behind a gap at a spot gets another node in front of it. -/
theorem setPrevious_spec (ha : s.Around d.get? first (back.lastId?.or previous))
    (hf : Joined d.get? s.parent? previous none back) (hd : Apart s back) (new : Option NodeId) :
    ∃ d', d.setPrevious s.parent? back.firstId? new = some d' ∧
      s.Around d'.get? first (back.lastId?.or new) ∧ Joined d'.get? s.parent? new none back ∧
      d.Relinked d' ∧ ∀ id, id ∉ s.ids → id ∉ back.ids → d'.get? id = d.get? id := by
  rcases back with _ | ⟨n, kids, rest⟩
  · cases s with
    | top => exact ⟨d, rfl, trivial, trivial, ⟨rfl, rfl, fun _ => rfl⟩, fun _ _ _ => rfl⟩
    | under m before behind above =>
      obtain ⟨d', hd', ha', hr, hother⟩ :=
        relink_above ha hd.spot (fun l => { l with lastChild := new }) rfl
      exact ⟨d', hd', ha', trivial, hr, fun id hs _ => hother id hs⟩
  · obtain ⟨hn, hkids, hrest⟩ := hf
    obtain ⟨d', hd', hr, hself, hother⟩ := relink_of_get? hn fun l => { l with previous := new }
    obtain ⟨-, hforest, hdisj⟩ := hd
    simp only [Forest.ids_cons, List.nodup_cons, List.mem_append, not_or] at hforest
    obtain ⟨⟨hnkids, hnrest⟩, -⟩ := hforest
    rw [Forest.lastId?_cons, Option.or_assoc, Option.some_or] at ha ⊢
    refine ⟨d', hd', ha.congr fun id hid => hother id ?_,
      ⟨hself, hkids.congr fun id hid => hother id ?_, hrest.congr fun id hid => hother id ?_⟩, hr,
      fun id _ hid => hother id ?_⟩
    · rintro rfl
      exact hdisj _ hid (by simp)
    · rintro rfl
      exact hnkids hid
    · rintro rfl
      exact hnrest hid
    · rintro rfl
      exact hid (by simp)

/-- Whether all that has changed from `d` to `d'` are the two ends of a gap between siblings at a
spot: the one in front has `next` behind it, and the one behind has `previous` in front of it. -/
structure Spanned (d d' : LinkedDocument) (s : Spot) (front back : Forest Node)
    (next previous : Option NodeId) : Prop where
  around : s.Around d'.get? (front.firstId?.or next) (back.lastId?.or previous)
  ahead : Joined d'.get? s.parent? none next front
  behind : Joined d'.get? s.parent? previous none back
  relinked : d.Relinked d'
  other : ∀ id, id ∉ s.ids → id ∉ (front ++ back).ids → d'.get? id = d.get? id

section Gap

theorem Apart.append (h : Apart s (front ++ back)) :
    Apart s front ∧ Apart s back ∧ (∀ id ∈ front.ids, id ∉ back.ids) := by
  obtain ⟨hs, hf, hdisj⟩ := h
  simp only [Forest.ids_append, List.nodup_append', List.mem_append, not_or] at hf hdisj
  exact ⟨⟨hs, hf.1, fun id hid => (hdisj id hid).1⟩, ⟨hs, hf.2.1, fun id hid => (hdisj id hid).2⟩,
    fun id hid => hf.2.2 hid⟩

variable (ha : s.Around d.get? (front.firstId?.or next) (back.lastId?.or previous))
  (hfront : Joined d.get? s.parent? none next front)
  (hback : Joined d.get? s.parent? previous none back) (hd : Apart s (front ++ back))
  (next' previous' : Option NodeId)

include ha hfront hback hd

theorem span_forward : ∃ d₁ d', d.setNext s.parent? front.lastId? next' = some d₁ ∧
    d₁.setPrevious s.parent? back.firstId? previous' = some d' ∧
    d.Spanned d' s front back next' previous' := by
  obtain ⟨hdf, hdb, hdisj⟩ := hd.append
  obtain ⟨d₁, hd₁, ha₁, hf₁, hr₁, hother₁⟩ := setNext_spec ha hfront hdf next'
  have hb₁ : Joined d₁.get? s.parent? previous none back := hback.congr fun id hid =>
    hother₁ id (fun hs => hdb.disjoint id hs hid) fun hf => hdisj id hf hid
  obtain ⟨d₂, hd₂, ha₂, hb₂, hr₂, hother₂⟩ := setPrevious_spec ha₁ hb₁ hdb previous'
  refine ⟨d₁, d₂, hd₁, hd₂, ha₂, hf₁.congr fun id hid => ?_, hb₂, hr₁.trans hr₂,
    fun id hs hid => ?_⟩
  · exact hother₂ id (fun hs => hdf.disjoint id hs hid) (hdisj id hid)
  · rw [Forest.ids_append, List.mem_append, not_or] at hid
    rw [hother₂ id hs hid.2, hother₁ id hs hid.1]

theorem span_backward : ∃ d₁ d', d.setPrevious s.parent? back.firstId? previous' = some d₁ ∧
    d₁.setNext s.parent? front.lastId? next' = some d' ∧
    d.Spanned d' s front back next' previous' := by
  obtain ⟨hdf, hdb, hdisj⟩ := hd.append
  obtain ⟨d₁, hd₁, ha₁, hb₁, hr₁, hother₁⟩ := setPrevious_spec ha hback hdb previous'
  have hf₁ : Joined d₁.get? s.parent? none next front := hfront.congr fun id hid =>
    hother₁ id (fun hs => hdf.disjoint id hs hid) (hdisj id hid)
  obtain ⟨d₂, hd₂, ha₂, hf₂, hr₂, hother₂⟩ := setNext_spec ha₁ hf₁ hdf next'
  refine ⟨d₁, d₂, hd₁, hd₂, ha₂, hf₂, hb₁.congr fun id hid => ?_, hr₁.trans hr₂,
    fun id hs hid => ?_⟩
  · exact hother₂ id (fun hs => hdb.disjoint id hs hid) fun hf => hdisj id hf hid
  · rw [Forest.ids_append, List.mem_append, not_or] at hid
    rw [hother₂ id hs hid.1, hother₁ id hs hid.2]

end Gap

/-- A gap that is closed. -/
theorem Spanned.joined {d' : LinkedDocument}
    (h : d.Spanned d' s front back back.firstId? front.lastId?) :
    Joined d'.get? none none none (s.fill (front ++ back)) := by
  refine joined_fill.2 ⟨?_, joined_append.2 ⟨?_, ?_⟩⟩
  · rw [Forest.firstId?_append, Forest.lastId?_append]
    exact h.around
  · rw [Option.or_none]
    exact h.ahead
  · rw [Option.or_none]
    exact h.behind

/-- A gap that is filled with a node. -/
theorem Spanned.joined_single {d' : LinkedDocument}
    (h : d.Spanned d' s front back (some n.id) (some n.id))
    (hn : d'.get? n.id = some ⟨n.label, ⟨s.parent?, front.lastId?, back.firstId?, none, none⟩⟩) :
    Joined d'.get? none none none (s.fill (front ++ .cons n .nil back)) := by
  refine joined_fill.2 ⟨?_, joined_append.2 ⟨?_, ?_, trivial, ?_⟩⟩
  · rw [Forest.firstId?_append, Forest.lastId?_append, Forest.lastId?_cons, Option.or_assoc,
      Option.some_or]
    exact h.around
  · exact h.ahead
  · rw [Option.or_none, Option.or_none, hn]
    rfl
  · exact h.behind

end LinkedDocument

end Treegram
