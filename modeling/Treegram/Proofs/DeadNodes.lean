import Treegram.Proofs.SlotUse

/-!
# Dead nodes

Nothing is read or changed through the identity of a dead node (`unread_of_dead`,
`untouched_of_dead`), and it stays dead until an edit gives its identity to a new node, which then
lives in its place (`removed_ids`). After a removal that is what the very next node gets.

Two things go against what is meant by a dead node. Its identity may come back, even when a node is
to be added below it: the new node is then its own parent. And a node that is added below another
dead one stays, although the call fails (`not_staysDead`).
-/

namespace Treegram

/-- Whether an edit adds a last child. -/
def Edit.appends : Edit → Bool
  | appendChild .. => true
  | _ => false

namespace Document

variable {d d' : Document} {id : NodeId}

/-- How an edit ends. -/
def outcome (d : Document) : Edit → Except Misuse Unit
  | .appendChild parent kind name value =>
    (d.appendChild parent (.plain kind name value)).1.map fun _ => ()
  | .insertBefore before kind name value =>
    (d.insertBefore before (.plain kind name value)).map fun _ => ()
  | .remove id => (d.remove id).map fun _ => ()
  | .removeChildren id => (d.removeChildren id).1
  | .setName id name => (d.setName id name).map fun _ => ()
  | .setValue id value => (d.setValue id value).map fun _ => ()
  | .appendAttribute id name value => (d.appendAttribute id name value).map fun _ => ()
  | .removeAttribute id name => (d.removeAttribute id name).map fun _ => ()

/-- Whether an identity tells nothing about the document. -/
structure Unread (d : Document) (id : NodeId) : Prop where
  subtree : d.subtree id = .error .deadNode
  links : d.links id = .error .deadNode
  children : d.children id = .error .deadNode
  firstChildNamed (name : String) : d.firstChildNamed id name = .error .deadNode
  after : d.after id = .error .deadNode
  nextSiblingNamed (name : String) : d.nextSiblingNamed id name = .error .deadNode
  sameSubtree (e : Document) (b : NodeId) : d.sameSubtree id e b = .error .deadNode
  sameSubtree_right (e : Document) (a : NodeId) : e.sameSubtree a d id = .error .deadNode

/-- Whether no edit through an identity does anything, but for a child that is added. It stands
beside the tree if the call fails, and is its own parent if it gets this identity itself. -/
structure Untouched (d : Document) (id : NodeId) : Prop where
  edit (e : Edit) : e.target = id → e.appends = false →
    d.outcome e = .error .deadNode ∧ d.edit e = d
  appendChild (l : Label) : id ≠ ⟨d.slots.next⟩ →
    (d.appendChild id l).1 = .error .deadNode ∧ (d.appendChild id l).2.tree = d.tree ∧
      (d.appendChild id l).2.nodeCount = d.nodeCount + 1
  appendChild_next (l : Label) : id = ⟨d.slots.next⟩ →
    (d.appendChild id l).1 = .ok id ∧
      (d.appendChild id l).2.links id = .ok ⟨some id, none, none, some id, some id⟩

/-! ## One call -/

section Dead

variable (h : d.contains id = false)

include h

theorem forall_pieces_of_dead : ∀ s ∈ d.pieces, id ∉ s.ids := by
  rw [← Bool.not_eq_true, contains_iff] at h
  exact fun s hs hid => h (List.mem_flatMap.2 ⟨s, hs, hid⟩)

theorem subtree?_of_dead : d.subtree? id = none := by
  rwa [contains, Option.isSome_eq_false_iff, Option.isNone_iff_eq_none] at h

theorem subtree_of_dead : d.subtree id = .error .deadNode := by
  rw [subtree, subtree?_of_dead h]

/-- What only the pieces with a node tell of it is not told of a dead one. -/
theorem findSome?_of_dead {β : Type} {f : Stray → Option β} (hf : ∀ s, id ∉ s.ids → f s = none) :
    f (.lost d.tree) = none ∧ d.strays.findSome? f = none := by
  obtain ⟨htree, hstrays⟩ := List.forall_mem_cons.1 (forall_pieces_of_dead h)
  exact ⟨hf _ htree, List.findSome?_eq_none_iff.2 fun s hs => hf s (hstrays s hs)⟩

theorem links_of_dead : d.links id = .error .deadNode := by
  obtain ⟨htree, hstrays⟩ := findSome?_of_dead h fun s => Stray.links?_of_not_mem
  rw [Stray.links?] at htree
  rw [links, htree, hstrays]

theorem after_of_dead : d.after id = .error .deadNode := by
  obtain ⟨htree, hstrays⟩ := findSome?_of_dead h fun s => Stray.after?_of_not_mem
  rw [Stray.after?] at htree
  rw [after, htree, hstrays]

theorem isTop_of_dead : d.isTop id = false := by
  obtain ⟨htree, hstrays⟩ := List.forall_mem_cons.1 (forall_pieces_of_dead h)
  rw [isTop, Bool.or_eq_false_iff, List.any_eq_false]
  refine ⟨Stray.isTop_of_not_mem htree, fun s hs => ?_⟩
  rw [Stray.isTop_of_not_mem (hstrays s hs)]
  exact Bool.false_ne_true

theorem remove_of_dead : d.remove id = .error .deadNode := by
  have hroot : d.root ≠ id := by
    have htop := isTop_of_dead h
    rw [isTop, Bool.or_eq_false_iff] at htop
    simpa using htop.1
  rw [remove, if_neg hroot, (findSome?_of_dead h fun s => Stray.whole?_of_not_mem).2,
    subtree?_of_dead h]

theorem relabel_of_dead (g : Label → Label) : d.relabel id g = .error .deadNode :=
  if_neg (by simp [h])

theorem children_of_dead : d.children id = .error .deadNode := by
  rw [children, subtree_of_dead h]
  rfl

theorem unread_of_dead : d.Unread id where
  subtree := subtree_of_dead h
  links := links_of_dead h
  children := children_of_dead h
  firstChildNamed name := by
    rw [firstChildNamed, subtree_of_dead h]
    rfl
  after := after_of_dead h
  nextSiblingNamed name := by
    rw [nextSiblingNamed, after_of_dead h]
    rfl
  sameSubtree e b := by
    rw [sameSubtree, subtree_of_dead h]
    rfl
  sameSubtree_right e a := by
    rw [sameSubtree, subtree_of_dead h, subtree]
    rcases e.subtree? a with _ | t <;> rfl

theorem edit_of_dead (e : Edit) (he : e.target = id) (ha : e.appends = false) :
    d.outcome e = .error .deadNode ∧ d.edit e = d := by
  cases e with
  | appendChild parent kind name value => simp [Edit.appends] at ha
  | insertBefore before kind name value =>
    obtain rfl : before = id := he
    have hi : d.insertBefore before (.plain kind name value) = .error .deadNode := by
      rw [insertBefore, if_neg (by simp [isTop_of_dead h]), if_neg (by simp [h])]
    rw [outcome, Document.edit, hi]
    exact ⟨rfl, rfl⟩
  | remove k =>
    obtain rfl : k = id := he
    rw [outcome, Document.edit, remove_of_dead h]
    exact ⟨rfl, rfl⟩
  | removeChildren k =>
    obtain rfl : k = id := he
    rw [outcome, Document.edit, removeChildren, children_of_dead h]
    exact ⟨rfl, rfl⟩
  | setName k name =>
    obtain rfl : k = id := he
    rw [outcome, Document.edit, setName, relabel_of_dead h]
    exact ⟨rfl, rfl⟩
  | setValue k value =>
    obtain rfl : k = id := he
    rw [outcome, Document.edit, setValue, relabel_of_dead h]
    exact ⟨rfl, rfl⟩
  | appendAttribute k name value =>
    obtain rfl : k = id := he
    rw [outcome, Document.edit, appendAttribute, relabel_of_dead h]
    exact ⟨rfl, rfl⟩
  | removeAttribute k name =>
    obtain rfl : k = id := he
    rw [outcome, Document.edit, removeAttribute, subtree_of_dead h]
    exact ⟨rfl, rfl⟩

theorem appendChild_of_dead (l : Label) : d.appendChild id l =
    if id = ⟨d.slots.next⟩ then (.ok id, d.addStray (.looped id (.cons (d.fresh l) .nil .nil)))
    else (.error .deadNode, d.addStray (.lost ⟨d.fresh l, .nil⟩)) := by
  rw [appendChild, graft, if_neg (by simp [h])]
  dsimp only
  split
  · rename_i heq
    rw [fresh, ← heq]
  · rfl

theorem untouched_of_dead : d.Untouched id where
  edit := edit_of_dead h
  appendChild l hne := by
    rw [appendChild_of_dead h, if_neg hne]
    refine ⟨rfl, rfl, ?_⟩
    simp only [nodeCount, addStray, List.foldr_cons, Stray.size, Tree.size, Forest.size]
    omega
  appendChild_next l heq := by
    rw [appendChild_of_dead h, if_pos heq]
    refine ⟨rfl, ?_⟩
    have htree := (findSome?_of_dead h fun s => Stray.links?_of_not_mem).1
    rw [Stray.links?] at htree
    subst heq
    simp [links, addStray, htree, Stray.links?, Forest.links?, Forest.firstId?, Forest.lastId?,
      fresh]

end Dead

/-! ## Runs -/

/-- Whether one of these edits gives the identity to a new node. -/
def handsOutIn (id : NodeId) : Document → List Edit → Bool
  | _, [] => false
  | d, e :: es => d.handsOut? e == some id || (d.edit e).handsOutIn id es

/-- A dead node comes back with the edit that hands out its identity. -/
theorem Housed.contains_edit (h : d.Housed) (hid : d.contains id = false) (e : Edit) :
    (d.edit e).contains id = true ↔ d.handsOut? e = some id := by
  rw [← Bool.not_eq_true, contains_iff] at hid
  rw [contains_iff]
  rcases h.edit_cases e with ⟨hout, hgains⟩ | ⟨hout, gone, hloses⟩
  · rw [hgains.ids.mem_iff, List.mem_cons, or_iff_left hid, hout, Option.some.injEq, eq_comm]
  · have hmem : id ∉ (d.edit e).ids := fun hm =>
      hid (hloses.ids.mem_iff.1 (List.mem_append_right _ hm))
    simp [hmem, hout]

theorem Housed.dead_run : ∀ (es : List Edit) {d : Document}, d.Housed →
    d.contains id = false →
      ((∀ es', es' <+: es → (es'.foldl Document.edit d).contains id = false) ↔
        d.handsOutIn id es = false)
  | [], d, h, hid => by simp [hid, handsOutIn]
  | e :: es, d, h, hid => by
    have hcons : (∀ es', es' <+: e :: es → (es'.foldl Document.edit d).contains id = false) ↔
        ∀ es', es' <+: es → (es'.foldl Document.edit (d.edit e)).contains id = false := by
      refine ⟨fun hall es' hp => hall (e :: es') (List.cons_prefix_cons.2 ⟨rfl, hp⟩),
        fun hall es' hp => ?_⟩
      rcases List.prefix_cons_iff.1 hp with rfl | ⟨es', rfl, htail⟩
      · exact hid
      · exact hall es' htail
    rw [hcons, handsOutIn]
    -- the first edit that hands the identity out ends it
    by_cases hout : d.handsOut? e = some id
    · have halive := (h.contains_edit hid e).2 hout
      simp only [hout, beq_self_eq_true, Bool.true_or, Bool.true_eq_false, iff_false]
      intro hall
      simpa [halive] using hall [] List.nil_prefix
    · have hdead : (d.edit e).contains id = false := by
        rwa [← h.contains_edit hid e, Bool.not_eq_true] at hout
      rw [beq_eq_false_iff_ne.2 hout, Bool.false_or]
      exact dead_run es (h.edit e) hdead

/-- A live node can be removed, unless it is the document node. -/
theorem exists_remove {t : Tree Node} (ht : d.subtree? id = some t) (hroot : id ≠ d.root) :
    ∃ d', d.remove id = .ok d' := by
  rw [remove, if_neg (Ne.symm hroot), ht]
  split
  · exact ⟨_, rfl⟩
  · exact ⟨_, rfl⟩

/-- What a removal takes is dead, and the next node gets an identity from it. -/
theorem Housed.contains_remove (h : d.Housed) {t : Tree Node} (ht : d.subtree? id = some t)
    (hr : d.remove id = .ok d') :
    (∀ k, d'.contains k = true ↔ d.contains k = true ∧ k ∉ t.ids) ∧ ⟨d'.slots.next⟩ ∈ t.ids := by
  obtain ⟨t', u, ht', hu, hslots, hids⟩ := h.exists_remove hr
  obtain rfl := Option.some.inj (ht.symm.trans ht')
  constructor
  · intro k
    have hdisj := (List.nodup_append'.1 (hids.nodup_iff.2 h.nodup)).2.2
    rw [contains_iff, contains_iff, hu, ← hids.mem_iff, List.mem_append]
    exact ⟨fun hk => ⟨.inr hk, fun hk' => hdisj hk' hk⟩, fun ⟨hk, hn⟩ => hk.resolve_left hn⟩
  · have hnext : d'.slots.next ∈ u.postorder.map fun n => n.id.slot := by
      have hne : (u.postorder.map fun n => n.id.slot) ≠ [] := by simp [Tree.postorder]
      rw [hslots, vacate, Slots.vacate, Slots.next, List.headD_eq_head?_getD,
        List.head?_append_of_ne_nil _ hne, List.head?_eq_some_head hne]
      exact List.head_mem hne
    obtain ⟨k, hk, heq⟩ := List.mem_map.1 (u.postorder_perm.mem_iff.1 hnext)
    rw [hu, ← heq]
    exact hk

/-- Whatever was done to a document: a live node can be removed with all that is below it, all of
which is dead then, and the next node gets an identity from it; nothing is read or changed through
the identity of a dead node; and it stays dead as long as no edit gives its identity to a new one,
which is never done while the node lives. -/
theorem removed_ids (es : List Edit) :
    let d := es.foldl Document.edit .empty
    (∀ id t, d.subtree? id = some t → id ≠ d.root → ∃ d', d.remove id = .ok d' ∧
      (∀ k, d'.contains k = true ↔ d.contains k = true ∧ k ∉ t.ids) ∧
        ⟨d'.slots.next⟩ ∈ t.ids) ∧
    (∀ k, d.contains k = false → d.Unread k ∧ d.Untouched k ∧ ∀ later,
      (∀ es', es' <+: later → (es'.foldl Document.edit d).contains k = false) ↔
        d.handsOutIn k later = false) ∧
    ∀ e k, d.handsOut? e = some k → d.contains k = false := by
  intro d
  have h : d.Housed := housed_edits es housed_empty
  refine ⟨fun id t ht hroot => ?_, fun k hk => ?_, fun e k hout => ?_⟩
  · obtain ⟨d', hr⟩ := exists_remove ht hroot
    exact ⟨d', hr, h.contains_remove ht hr⟩
  · exact ⟨unread_of_dead hk, untouched_of_dead hk, fun later => h.dead_run later hk⟩
  · rcases h.edit_cases e with ⟨hnext, -⟩ | ⟨hnone, -⟩
    · rw [hnext, Option.some.injEq] at hout
      rw [← hout]
      exact h.contains_next
    · simp [hnone] at hout

/-- A node with another below it, and one behind. -/
def planted : List Edit :=
  [.appendChild ⟨0⟩ .element "a" "", .appendChild ⟨1⟩ .data "" "x",
    .appendChild ⟨0⟩ .element "b" ""]

theorem removed_ids_planted :
    ∃ t d', ((planted.foldl Document.edit .empty).subtree? ⟨1⟩ = some t ∧
      (planted.foldl Document.edit .empty).remove ⟨1⟩ = .ok d' ∧ t.ids = [⟨1⟩, ⟨2⟩]) ∧
      (d'.contains ⟨2⟩ = false ∧ d'.contains ⟨3⟩ = true ∧ ⟨d'.slots.next⟩ ∈ t.ids) ∧
      d'.Unread ⟨2⟩ ∧ d'.Untouched ⟨2⟩ ∧
      ([Edit.setName ⟨3⟩ "c"].foldl Document.edit d').contains ⟨2⟩ = false ∧
      (planted.foldl Document.edit .empty).contains ⟨4⟩ = false := by
  obtain ⟨t, ht, ht'⟩ : ∃ t, (planted.foldl Document.edit .empty).subtree? ⟨1⟩ = some t ∧
      t.ids = [⟨1⟩, ⟨2⟩] := ⟨_, rfl, rfl⟩
  obtain ⟨hremove, -, hfresh⟩ := removed_ids planted
  obtain ⟨d', hr, hids, hnext⟩ := hremove ⟨1⟩ t ht (by decide)
  have hafter : (planted ++ [Edit.remove ⟨1⟩]).foldl Document.edit .empty = d' := by
    rw [List.foldl_append]
    show ((planted.foldl Document.edit .empty).remove ⟨1⟩).toOption.getD
      (planted.foldl Document.edit .empty) = d'
    rw [hr]
    rfl
  have hdead : d'.contains ⟨2⟩ = false := by
    rw [← Bool.not_eq_true, hids, ht']
    simp
  obtain ⟨-, hdeads, -⟩ := removed_ids (planted ++ [Edit.remove ⟨1⟩])
  rw [hafter] at hdeads
  obtain ⟨hunread, huntouched, hlater⟩ := hdeads ⟨2⟩ hdead
  exact ⟨t, d', ⟨ht, hr, ht'⟩, ⟨hdead, (hids ⟨3⟩).2 ⟨rfl, by rw [ht']; decide⟩, hnext⟩, hunread,
    huntouched, (hlater [.setName ⟨3⟩ "c"]).2 rfl _ (List.prefix_refl _),
    hfresh (.insertBefore ⟨3⟩ .element "c" "") ⟨4⟩ rfl⟩

/-- Whether an edit takes a node that lives. -/
def Removes (d : Document) (e : Edit) (id : NodeId) : Prop :=
  d.contains id = true ∧ (d.edit e).contains id = false

/-- Whether a removed node is dead after any further edits. -/
def StaysDead : Prop :=
  ∀ (es : List Edit) (e : Edit) (later : List Edit) (id : NodeId),
    (es.foldl Document.edit .empty).Removes e id →
      (later.foldl Document.edit ((es.foldl Document.edit .empty).edit e)).contains id = false

/-- Whether an edit of a removed node fails, after any others, and leaves the document as it was. -/
def StaysAsItWas : Prop :=
  ∀ (es : List Edit) (e : Edit) (later : List Edit) (call : Edit),
    (es.foldl Document.edit .empty).Removes e call.target →
      let d := later.foldl Document.edit ((es.foldl Document.edit .empty).edit e)
      (∃ cause, d.outcome call = .error cause) ∧ d.edit call = d

/-- The node that is added after a removal lives under the identity of the removed one, and a node
that is added below a dead one stays. -/
theorem not_staysDead : ¬StaysDead ∧ ¬StaysAsItWas := by
  constructor
  · intro h
    have := h [.appendChild ⟨0⟩ .element "a" ""] (.remove ⟨1⟩)
      [.appendChild ⟨0⟩ .element "b" ""] ⟨1⟩ ⟨by decide, by decide⟩
    revert this
    decide
  · intro h
    have := (h [.appendChild ⟨0⟩ .element "a" "", .appendChild ⟨0⟩ .element "b" ""] (.remove ⟨1⟩)
      [.remove ⟨2⟩] (.appendChild ⟨1⟩ .element "c" "") ⟨by decide, by decide⟩).2
    revert this
    decide

end Document

end Treegram
