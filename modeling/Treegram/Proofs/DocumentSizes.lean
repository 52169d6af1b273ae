import Treegram.Cache
import Treegram.Proofs.Comparisons

/-!
# What a document occupies

The size of a document is added up slot by slot, but it is that of its tree: the slots hold what a
walk from the document node comes by, and nothing else (`Holds.sized`). So documents of one shape
have one size, however each came about, a reply takes the same room in a cache when it is written
and read again, and what a removed node takes off the size is the size of its tree (`size_exact`).
-/

namespace Treegram

/-! ## Sums over trees -/

theorem Label.byteSize_eq (l : Label) : l.byteSize =
    overhead + l.name.utf8ByteSize + l.value.utf8ByteSize +
      (l.attributes.map fun a =>
        Attribute.overhead + a.name.utf8ByteSize + a.value.utf8ByteSize).sum := by
  rw [byteSize, List.sum_eq_foldr, List.foldr_map]
  rfl

namespace Forest

variable {α : Type} (w : α → Nat)

theorem weight_eq_sum : ∀ f : Forest α, f.weight w = (f.nodes.map w).sum
  | .nil => rfl
  | .cons a kids rest => by
    rw [weight, nodes, weight_eq_sum kids, weight_eq_sum rest]
    simp
    omega

theorem weight_append : ∀ f g : Forest α, (f ++ g).weight w = f.weight w + g.weight w
  | .nil, g => (Nat.zero_add _).symm
  | .cons a kids rest, g => by
    show w a + kids.weight w + (rest ++ g).weight w = _
    rw [weight_append rest g, weight]
    omega

end Forest

/-- What is added at a spot is added to the forest around it. -/
theorem Spot.weight_fill (w : Node → Nat) {f g : Forest Node} {k : Nat} :
    ∀ s : Spot, f.weight w = g.weight w + k → (s.fill f).weight w = (s.fill g).weight w + k
  | .top, h => h
  | .under n front back above, h => by
    refine above.weight_fill w ?_
    simp only [Forest.weight_append, Forest.weight]
    omega

namespace Tree

theorem weight_eq_sum {α : Type} (w : α → Nat) (t : Tree α) : t.weight w = (t.nodes.map w).sum := by
  rw [weight, nodes, Forest.weight_eq_sum, List.map_cons, List.sum_cons]

theorem byteSize_labels (t : Tree Node) : t.labels.byteSize = t.byteSize := by
  rw [byteSize, byteSize, weight_eq_sum, weight_eq_sum, labels, map, nodes, nodes,
    Forest.nodes_map]
  simp only [List.map_cons, List.map_map]
  rfl

theorem length_nodes_labels (t : Tree Node) : t.labels.nodes.length = t.size := by
  rw [labels, map, nodes, Forest.nodes_map, List.length_cons, List.length_map, size,
    ← Forest.length_ids, Forest.ids, List.length_map]

end Tree

/-! ## Sums over slots -/

/-- The nodes of a forest are in their slots, with their labels. -/
theorem Joined.exists_nodes {get : NodeId → Option LinkedNode} : ∀ {f : Forest Node}
    {parent previous next : Option NodeId}, Joined get parent previous next f →
      ∃ ns : List LinkedNode, f.ids.map get = ns.map some ∧
        ns.map LinkedNode.label = f.nodes.map Node.label
  | .nil, _, _, _, _ => ⟨[], rfl, rfl⟩
  | .cons n kids rest, parent, previous, next, ⟨hn, hkids, hrest⟩ => by
    obtain ⟨ns, hids, hlabels⟩ := hkids.exists_nodes
    obtain ⟨ns', hids', hlabels'⟩ := hrest.exists_nodes
    let links : Links := ⟨parent, previous, rest.firstId?.or next, kids.firstId?, kids.lastId?⟩
    refine ⟨⟨n.label, links⟩ :: (ns ++ ns'), ?_, ?_⟩
    · rw [Forest.ids_cons, List.map_cons, hn, List.map_append, hids, hids', List.map_cons,
        List.map_append]
    · rw [List.map_cons, List.map_append, hlabels, hlabels', Forest.nodes, List.map_cons,
        List.map_append]

namespace LinkedDocument

variable {c : LinkedDocument} {d : Document}

/-- Whether the sizes that are told of a document are those of the nodes `ids`, one after the other
met on the walk from the document node. -/
structure Sized (c : LinkedDocument) (d : Document) (ids : List NodeId) : Prop where
  walk : c.walk (some c.root) = some ids
  count : c.nodeCount = ids.length
  size : ∃ ns : List LinkedNode, ids.map c.get? = ns.map some ∧
    c.byteSize = (ns.map fun n =>
      Label.overhead + n.label.name.utf8ByteSize + n.label.value.utf8ByteSize +
        (n.label.attributes.map fun a =>
          Attribute.overhead + a.name.utf8ByteSize + a.value.utf8ByteSize).sum).sum
  count_document : d.nodeCount = c.nodeCount
  size_document : d.byteSize = c.byteSize

theorem Holds.byteSize_document (h : c.Holds d) : d.byteSize = d.forest.weight fun n =>
    n.label.byteSize := by
  rw [Document.byteSize, h.strays]
  rfl

theorem Holds.sized (h : c.Holds d) : c.Sized d d.forest.ids := by
  obtain ⟨ns, hids, hlabels⟩ := h.joined.exists_nodes
  -- the slots hold the nodes that the walk comes by, in whatever order
  have hvalues : c.nodes.values.Perm ns := by
    have hperm := h.values_perm
    have hns : d.forest.ids.filterMap c.get? = ns :=
      calc d.forest.ids.filterMap c.get?
        _ = (d.forest.ids.map c.get?).filterMap id := by
          rw [List.filterMap_map]
          rfl
        _ = ns := by
          rw [hids, List.filterMap_map]
          exact List.filterMap_some
    rwa [hns] at hperm
  have hsize : c.byteSize = (ns.map fun n => n.label.byteSize).sum := by
    rw [byteSize, ← (hvalues.map _).sum_nat, List.sum_eq_foldr, List.foldr_map]
  refine ⟨?_, h.count, ⟨ns, hids, ?_⟩, h.matches.count, ?_⟩
  · rw [h.root]
    exact Joined.walk h.joined
  · simp only [hsize, Label.byteSize_eq]
  · rw [h.byteSize_document, Forest.weight_eq_sum, hsize]
    have hsizes := congrArg (List.map Label.byteSize) hlabels
    rw [List.map_map, List.map_map] at hsizes
    exact congrArg List.sum hsizes.symm

end LinkedDocument

/-! ## Documents that are reached -/

namespace ReachedDocument

variable (d e : ReachedDocument)

theorem byteSize_links : d.links.byteSize = d.document.labels.byteSize := by
  rw [← d.holds.sized.size_document, d.holds.byteSize_document, Document.labels,
    Tree.byteSize_labels]
  rfl

theorem nodeCount_links : d.links.nodeCount = d.document.labels.nodes.length := by
  rw [d.holds.sized.count, Forest.length_ids, Document.labels, Tree.length_nodes_labels]
  simp [Document.forest, Forest.single, Forest.size, Tree.size]

theorem sameShape_links :
    d.links.sameShape e.links = some (d.document.sameShape e.document) := by
  have hroot : ∀ d : ReachedDocument, d.root.id = d.links.root := fun d => d.holds.root.symm
  have h := d.root.compare_eq e.root
  rw [ReachedNode.compare, hroot, hroot] at h
  rw [LinkedDocument.sameShape]
  exact h

/-- A message is read below the document node of an empty document. -/
theorem exists_read {s rest : Bytes} {t : Tree Label}
    (h : Wire.decodeDocument s = (.ok t, rest)) : ∃ (e : ReachedDocument) (top : NodeId),
      LinkedDocument.empty.decode Document.empty.root s = some ((e.links, .ok top), rest) ∧
      Wire.decodeInto .empty Document.empty.root s = .ok ((e.document, .ok top), rest) ∧
      e.document.labels = t := by
  obtain ⟨top, hread⟩ := Wire.isRead_ofForest h
  have hf : Document.empty.forest =
      Spot.top.fill (.nil ++ .cons Document.empty.tree.node .nil .nil) := rfl
  obtain ⟨c, d, hc, hd, -⟩ := LinkedDocument.holds_empty.decode hf s
  have hd' := hd.symm.trans hread
  rw [Except.ok.injEq, Prod.mk.injEq, Prod.mk.injEq] at hd'
  obtain ⟨⟨rfl, hresult⟩, hrest⟩ := hd'
  rw [hresult, hrest] at hc
  refine ⟨⟨c, _, .decode .empty rfl hc hread⟩, top, hc, hread, ?_⟩
  obtain ⟨m, -, -, rfl⟩ := Wire.decodeDocument_eq_ok_iff.1 h
  exact Document.labels_ofForest _

end ReachedDocument

theorem Reply.document_of_ofDocument {document : Tree Label} {id : Nat} {r : Reply}
    (h : ofDocument document id = .ok r) : r.document = document := by
  unfold ofDocument at h
  split at h
  · rw [← Except.ok.inj h]
  · simp at h

namespace ReachedNode

theorem exists_remove (n : ReachedNode) (h : n.id ≠ n.document.root) :
    ∃ e : ReachedDocument, n.links.remove n.id = some e.links ∧
      n.document.remove n.id = .ok e.document ∧
      e.links.byteSize + n.tree.byteSize = n.links.byteSize := by
  obtain ⟨s, front, back, hid, hf⟩ := n.exists_place
  rw [← hid] at h ⊢
  obtain ⟨c, d, hc, hd, hholds, hforest⟩ := n.holds.remove hf h
  have hedit : n.document.edit (.remove n.tree.node.id) = d := by
    show (n.document.remove _).toOption.getD _ = d
    rw [hd]
    rfl
  have haccepts : n.document.accepts (.remove n.tree.node.id) = true := by
    have halive : n.document.contains n.tree.node.id = true := by
      rw [n.holds.contains, hf, Spot.mem_ids_fill]
      simp
    simp [Document.accepts, Edit.target, Edit.needsParent, halive, Ne.symm h]
  refine ⟨⟨c, d, hedit ▸ .edit n.reached haccepts hc⟩, hc, hd, ?_⟩
  -- the forest around the node stays, and only its siblings are left of what stood at the spot
  have hsiblings : (front ++ .cons n.tree.node n.tree.children back).weight
      (fun m => m.label.byteSize) =
        (front ++ back).weight (fun m => m.label.byteSize) + n.tree.byteSize := by
    rw [Forest.weight_append, Forest.weight_append, Forest.weight, Tree.byteSize, Tree.weight]
    show _ = _ + (n.tree.node.label.byteSize + n.tree.children.weight fun m => m.label.byteSize)
    omega
  rw [← hholds.sized.size_document, ← n.holds.sized.size_document, hholds.byteSize_document,
    n.holds.byteSize_document, hforest, hf, s.weight_fill _ hsiblings]

end ReachedNode

namespace ReachedDocument

/-- However a document was reached, its sizes are those of its tree. -/
theorem size_exact :
    (∀ d : ReachedDocument, (∃ ids, d.links.Sized d.document ids) ∧
      ∀ key id r, Reply.ofDocument d.document.labels id = .ok r →
        CacheEntry.footprint key r = key.length + d.links.byteSize + CacheEntry.overhead) ∧
    (∀ d e : ReachedDocument, d.links.sameShape e.links = some (d.document.sameShape e.document) ∧
      (d.document.sameShape e.document = true →
        d.links.byteSize = e.links.byteSize ∧ d.links.nodeCount = e.links.nodeCount)) ∧
    (∀ (d : ReachedDocument) (key : Bytes) (id : Nat) (r : Reply) (b : Bytes),
      Reply.ofDocument d.document.labels id = .ok r →
      d.document.labels.node.value = "" → d.document.labels.node.attributes = [] →
      d.document.labels.encode = .ok b → ∃ (e : ReachedDocument) (top : NodeId) (r' : Reply),
        LinkedDocument.empty.decode Document.empty.root b = some ((e.links, .ok top), []) ∧
        Wire.decodeInto .empty Document.empty.root b = .ok ((e.document, .ok top), []) ∧
        Reply.ofDocument e.document.labels id = .ok r' ∧
        CacheEntry.footprint key r' = CacheEntry.footprint key r) ∧
    ∀ n : ReachedNode, n.id ≠ n.document.root → ∃ e : ReachedDocument,
      n.links.remove n.id = some e.links ∧ n.document.remove n.id = .ok e.document ∧
        e.links.byteSize + n.tree.byteSize = n.links.byteSize := by
  refine ⟨fun d => ⟨⟨_, d.holds.sized⟩, fun key id r hr => ?_⟩,
    fun d e => ⟨d.sameShape_links e, fun h => ?_⟩,
    fun d key id r b hr hvalue hattributes hb => ?_, ReachedNode.exists_remove⟩
  · rw [byteSize_links, CacheEntry.footprint, Reply.document_of_ofDocument hr]
  · rw [Document.sameShape, Tree.sameAs_iff, ← Document.labels, ← Document.labels] at h
    rw [byteSize_links, byteSize_links, nodeCount_links, nodeCount_links, h]
    exact ⟨rfl, rfl⟩
  · obtain ⟨hs, rfl⟩ := d.document.labels.encode_eq_ok_iff.1 hb
    have hplain : d.document.labels.node = .document :=
      (Label.eq_document_iff d.reached.topKind hs.1.named).2 ⟨hvalue, hattributes⟩
    have hread := Wire.decodeDocument_of_no_attributes hs d.reached.topKind hattributes
    rw [← hplain] at hread
    obtain ⟨e, top, hc, hd, hlabels⟩ := exists_read hread
    exact ⟨e, top, r, hc, hd, by rw [hlabels]; exact hr, rfl⟩

theorem size_exact_detour : ∃ d e : ReachedDocument,
    d.document = ReachedNode.direct.foldl Document.edit .empty ∧
    e.document = ReachedNode.detour.foldl Document.edit .empty ∧
    (d.links.byteSize = e.links.byteSize ∧ d.links.nodeCount = e.links.nodeCount) ∧
    (∃ (r r' : Reply) (b : Bytes) (read : ReachedDocument) (top : NodeId),
      Reply.ofDocument e.document.labels 7 = .ok r ∧ e.document.labels.encode = .ok b ∧
      LinkedDocument.empty.decode Document.empty.root b = some ((read.links, .ok top), []) ∧
      Reply.ofDocument read.document.labels 7 = .ok r' ∧
      CacheEntry.footprint [] r' = CacheEntry.footprint [] r ∧
      CacheEntry.footprint [] r = e.links.byteSize + CacheEntry.overhead) ∧
    ∃ read : ReachedDocument, e.links.remove ⟨2⟩ = some read.links ∧
      read.links.byteSize + Tree.byteSize
        ⟨Label.element "response" "", .cons (Label.plain .data "" "x") .nil .nil⟩ =
          e.links.byteSize := by
  obtain ⟨c, -, hc⟩ := Reached.run ReachedNode.direct .empty (by decide)
  obtain ⟨c', -, hc'⟩ := Reached.run ReachedNode.detour .empty (by decide)
  let d : ReachedDocument := ⟨c, _, hc⟩
  let e : ReachedDocument := ⟨c', _, hc'⟩
  have hshape : (ReachedNode.direct.foldl Document.edit .empty).sameShape
      (ReachedNode.detour.foldl Document.edit .empty) = true := by decide
  have hroot : (⟨2⟩ : NodeId) ≠ (ReachedNode.detour.foldl Document.edit .empty).root := by decide
  obtain ⟨hsizes, hshapes, hreplies, hremoves⟩ := size_exact
  obtain ⟨read, top, r', hread, -, hr', hfootprint⟩ :=
    hreplies e [] 7 ⟨_, _, 7⟩ _ rfl rfl rfl rfl
  obtain ⟨gone, hgone, -, hsize⟩ := hremoves ⟨e, ⟨2⟩, _, rfl⟩ hroot
  refine ⟨d, e, rfl, rfl, (hshapes d e).2 hshape,
    ⟨_, r', _, read, top, rfl, rfl, hread, hr', hfootprint, ?_⟩, gone, hgone, ?_⟩
  · rw [(hsizes e).2 [] 7 _ rfl]
    simp
  · rw [← hsize, ← Tree.byteSize_labels]
    rfl

end ReachedDocument

end Treegram
