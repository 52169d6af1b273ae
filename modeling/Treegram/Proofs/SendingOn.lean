import Treegram.Proofs.DecodedChildren
import Treegram.Proofs.DocumentUnits

/-!
# What was read can be sent on

Every node that is read can be sent where it stands (`Assembly.sendable_assemble`), in whatever
order its units came in and whether the message ends well or not: a unit that is read opens a node
that can be sent, adds an attribute that can be, or moves nodes to where they stay. So a document
that was read has a message of its own, in which the units are in the order of the tree; that
message is read as the same document, and written again it stays as it is (`decodeDocument_normal`).
-/

namespace Treegram

namespace Forest

variable {α : Type} {a : α}

theorem mem_nodes_reverseOnto : ∀ {f g : Forest α},
    a ∈ (f.reverseOnto g).nodes ↔ a ∈ f.nodes ∨ a ∈ g.nodes
  | .nil, g => by simp [reverseOnto, nodes]
  | .cons b kids rest, g => by
    simp only [reverseOnto, mem_nodes_reverseOnto, nodes, List.mem_cons, List.mem_append]
    tauto

theorem mem_nodes_reverse {f : Forest α} : a ∈ f.reverse.nodes ↔ a ∈ f.nodes := by
  simp [reverse, mem_nodes_reverseOnto, nodes]

theorem nodes_map {β : Type} (g : α → β) : ∀ f : Forest α, (f.map g).nodes = f.nodes.map g
  | .nil => rfl
  | .cons a kids rest => by
    rw [map, nodes, nodes, nodes_map g kids, nodes_map g rest, List.map_cons, List.map_append]

theorem mem_nodes_map {β : Type} {g : α → β} {b : β} {f : Forest α} :
    b ∈ (f.map g).nodes ↔ ∃ a ∈ f.nodes, g a = b := by
  rw [nodes_map, List.mem_map]

/-- A tree that is found is part of the forest. -/
theorem nodes_find?_subset {p : α → Bool} {t : Tree α} : ∀ {f : Forest α}, f.find? p = some t →
    t.nodes ⊆ f.nodes
  | .cons a kids rest, h => by
    rw [find?] at h
    split at h
    · obtain rfl := Option.some.inj h
      exact List.cons_subset_cons _ (List.subset_append_left _ _)
    · rw [nodes]
      refine List.subset_cons_of_subset _ ?_
      split at h
      · rename_i hkids
        obtain rfl := Option.some.inj h
        exact List.subset_append_of_subset_left _ (nodes_find?_subset hkids)
      · exact List.subset_append_of_subset_right _ (nodes_find?_subset h)

end Forest

/-! ## Nodes that are read -/

/-- Whether the node can be sent below the top of a message, as far as it was read. -/
structure OpenNode.Sendable (n : OpenNode) : Prop where
  label : n.label.SendableBelow
  children : ∀ l ∈ n.children.nodes, l.SendableBelow

theorem Label.SendableBelow.reverse {l : Label} (h : l.SendableBelow) :
    ({ l with attributes := l.attributes.reverse } : Label).SendableBelow :=
  ⟨h.1, h.2.named, h.2.short, fun a ha => h.2.attributes a (List.mem_reverse.1 ha)⟩

namespace Assembly

/-- Whether all nodes can be sent below the top of a message, as far as they were read. -/
structure Sendable (a : Assembly) : Prop where
  roots : ∀ l ∈ a.roots.nodes, l.SendableBelow
  path : ∀ n ∈ a.path, n.Sendable

variable {below : Bool} {a : Assembly} {u : WireUnit} {p : Progress}

theorem sendable_start : start.Sendable where
  roots := by simp [start, Forest.nodes]
  path := by simp [start]

theorem sendable_closed {n : OpenNode} (h : n.Sendable) {f : Forest Label}
    (hf : ∀ l ∈ f.nodes, l.SendableBelow) :
    ∀ l ∈ (Forest.cons n.finished n.children.reverse f).nodes, l.SendableBelow := by
  simp only [Forest.nodes, List.forall_mem_cons, List.forall_mem_append, Forest.mem_nodes_reverse]
  exact ⟨h.label.reverse, h.children, hf⟩

theorem Sendable.close (h : a.Sendable) : a.close.Sendable := by
  obtain ⟨hroots, hpath⟩ := h
  rcases a with ⟨started, isDocument, roots, _ | ⟨n, _ | ⟨m, path⟩⟩⟩
  · exact ⟨hroots, hpath⟩
  · rw [List.forall_mem_singleton] at hpath
    exact ⟨sendable_closed hpath hroots, by simp [Assembly.close]⟩
  · rw [List.forall_mem_cons, List.forall_mem_cons] at hpath
    refine ⟨hroots, List.forall_mem_cons.2 ⟨⟨hpath.2.1.label, ?_⟩, hpath.2.2⟩⟩
    exact sendable_closed hpath.1 hpath.2.1.children

theorem Sendable.openNode (h : a.Sendable) {kind : NodeKind} {name value : String}
    (hk : kind ≠ .document) (hn : nameFault? kind name = none) (hs : Short name ∧ Short value) :
    (a.openNode kind name value).Sendable where
  roots := h.roots
  path := by
    refine List.forall_mem_cons.2 ⟨⟨⟨hk, hn, hs, ?_⟩, ?_⟩, h.path⟩
    · simp [Label.plain]
    · simp [Forest.nodes]

/-- A unit that is read leaves nodes that can be sent. -/
theorem Sendable.steps (h : a.Sendable) (hu : u.Fits) (hs : a.Steps below u p) :
    p.state.Sendable := by
  cases hs with
  | document hb hs hn => exact ⟨h.roots, h.path⟩
  | child hk hn => exact h.openNode hk hn hu
  | sibling hk hn hp => exact h.close.openNode hk hn hu
  | @attr kind name value n path hp hn =>
    have hpath := h.path
    rw [hp, List.forall_mem_cons] at hpath
    obtain ⟨⟨hl, hkids⟩, hrest⟩ := hpath
    refine ⟨h.roots, List.forall_mem_cons.2 ⟨⟨⟨hl.1, hl.2.named, hl.2.short, ?_⟩, hkids⟩, hrest⟩⟩
    exact List.forall_mem_cons.2 ⟨⟨hn, hu⟩, hl.2.attributes⟩
  | endNothing hp hd => exact h
  | endMessage hp hc => exact h.close
  | endNode hp hc => exact h.close

/-- So do all units up to the end of the message, or up to where it cannot be read any further. -/
theorem sendable_assemble (below : Bool) (a : Assembly) (s : Bytes) (h : a.Sendable) :
    (Wire.assemble below a s).1.1.Sendable := by
  rcases hu : Wire.readUnit s with ⟨e | u, s'⟩
  · rwa [Wire.assemble_of_error hu]
  · have := Wire.takes_readUnit _ _ _ hu
    rw [Wire.assemble_of_readUnit hu]
    have hfits := (Wire.readUnit_eq_ok_iff.1 hu).1
    rcases hp : a.step below u with cause | b | b
    · exact h
    · exact sendable_assemble below b s' (h.steps hfits (step_eq_ok_iff.1 hp))
    · exact h.steps hfits (step_eq_ok_iff.1 hp)
termination_by ByteSource.size s

theorem sendable_go {roots : Forest Label} (hroots : ∀ l ∈ roots.nodes, l.SendableBelow) :
    ∀ path : List OpenNode, (∀ n ∈ path, n.Sendable) →
      ∀ l ∈ (forest.go roots path).nodes, l.SendableBelow
  | [], _ => by
    rw [forest.go]
    simpa only [Forest.mem_nodes_reverse] using hroots
  | [n], h => by
    rw [forest.go]
    simp only [Forest.mem_nodes_reverse]
    exact sendable_closed (List.forall_mem_singleton.1 h) hroots
  | n :: m :: path, h => by
    rw [forest.go]
    rw [List.forall_mem_cons, List.forall_mem_cons] at h
    refine sendable_go hroots (m.adopt n.finished n.children.reverse :: path) ?_
    exact List.forall_mem_cons.2 ⟨⟨h.2.1.label, sendable_closed h.1 h.2.1.children⟩, h.2.2⟩
termination_by path => path.length

end Assembly

/-! ## Documents that are read -/

namespace Document

variable {d : Document}

theorem map_label_number : ∀ (f : Forest Label) (s : Slots), (number s f).1.map Node.label = f
  | .nil, _ => rfl
  | .cons l kids rest, s => by
    rw [number, Forest.map, map_label_number kids, map_label_number rest]

theorem subtree_eq_ok_iff (hs : d.strays = []) {id : NodeId} {t : Tree Node} :
    d.subtree id = .ok t ↔ d.tree.find? (fun n => n.id == id) = some t := by
  rw [subtree, subtree?, hs, List.findSome?_nil]
  cases hfind : d.tree.find? fun n => n.id == id <;> simp

/-- The labels of a document that is made from a forest are those of the forest. -/
theorem labels_ofForest (f : Forest Label) : (ofForest f).labels = ⟨.document, f⟩ :=
  congrArg (Tree.mk Label.document) (map_label_number f empty.slots)

end Document

/-- If all of a tree can be sent, then so can what is below any of its nodes. -/
theorem Tree.Sendable.find? {t u : Tree Node} (h : t.labels.Sendable) {p : Node → Bool}
    (hu : t.find? p = some u) : u.labels.Sendable := by
  rw [Tree.find?] at hu
  split at hu
  · obtain rfl := Option.some.inj hu
    exact h
  · have hbelow : ∀ n ∈ u.nodes, n.label.SendableBelow := fun n hn =>
      h.2 _ (Forest.mem_nodes_map.2 ⟨n, Forest.nodes_find?_subset hu hn, rfl⟩)
    rw [Tree.nodes, List.forall_mem_cons] at hbelow
    refine ⟨hbelow.1.2, fun l hl => ?_⟩
    obtain ⟨n, hn, rfl⟩ := Forest.mem_nodes_map.1 hl
    exact hbelow.2 n hn

namespace Wire

variable {s rest : Bytes} {t : Tree Label} {d : Document}

/-- Each node of a message that was read can be sent, whatever ended the message. -/
theorem sendable_decode (below : Bool) (s : Bytes) :
    ∀ l ∈ (decode below s).1.forest.nodes, l.SendableBelow := by
  have h := Assembly.sendable_assemble below .start s Assembly.sendable_start
  exact Assembly.sendable_go h.roots _ h.path

/-- Whether a document is what a new one becomes when a message is read below its document node,
with `rest` behind the message. -/
def IsRead (s : Bytes) (d : Document) (rest : Bytes) : Prop :=
  ∃ top, decodeInto .empty Document.empty.root s = .ok ((d, .ok top), rest)

theorem decodeDocument_eq_ok_iff : decodeDocument s = (.ok t, rest) ↔
    ∃ m, decode true s = (m, rest) ∧ m.fault = none ∧ t = ⟨.document, m.forest⟩ := by
  rw [decodeDocument]
  rcases hm : decode true s with ⟨⟨forest, isDocument, _ | e⟩, s'⟩ <;>
    simp [and_comm, eq_comm]

theorem isRead_ofForest (h : decodeDocument s = (.ok t, rest)) :
    IsRead s (.ofForest t.children) rest := by
  obtain ⟨m, hm, hfault, rfl⟩ := decodeDocument_eq_ok_iff.1 h
  have hm' : decode (Document.empty.tree.node.label.kind == .document) s = (m, rest) := hm
  refine ⟨if m.isDocument then ⟨0⟩ else ⟨1⟩, ?_⟩
  have hroot : Document.empty.subtree Document.empty.root = .ok Document.empty.tree := rfl
  rw [decodeInto, hroot]
  simp only [bind, Except.bind]
  rw [hm']
  simp only [hfault]
  rfl

theorem sendable_of_decodeDocument (h : decodeDocument s = (.ok t, rest)) : t.Sendable := by
  obtain ⟨m, hm, -, rfl⟩ := decodeDocument_eq_ok_iff.1 h
  have hbelow := sendable_decode true s
  rw [hm] at hbelow
  refine ⟨⟨rfl, ?_, by simp [Label.document, Label.plain]⟩, hbelow⟩
  have hempty : Short "" := by
    unfold Short
    decide
  exact ⟨hempty, hempty⟩

/-- A document that was read has a message, and so has each of its nodes. Its message is read as a
document of the same shape, with nothing left, and that document has the same message. -/
theorem decodeDocument_normal (h : decodeDocument s = (.ok t, rest)) :
    ∃ d, IsRead s d rest ∧ d.labels = t ∧
      (∀ n : LiveNode, n.document = d → ∃ b, n.encode = .ok b) ∧
      ∃ b d', t.encode = .ok b ∧ IsRead b d' [] ∧ decodeDocument b = (.ok d'.labels, []) ∧
        d'.sameShape d = true ∧ d'.labels.encode = .ok b := by
  have hs := sendable_of_decodeDocument h
  obtain ⟨b, hb⟩ : ∃ b, t.encode = .ok b := ⟨_, t.encode_eq_ok_iff.2 ⟨hs, rfl⟩⟩
  have hlabels : (Document.ofForest t.children).labels = t := by
    obtain ⟨m, -, -, rfl⟩ := decodeDocument_eq_ok_iff.1 h
    exact Document.labels_ofForest _
  have hread : decodeDocument b = (.ok t, []) := by
    obtain ⟨-, rfl⟩ := t.encode_eq_ok_iff.1 hb
    obtain ⟨m, -, -, rfl⟩ := decodeDocument_eq_ok_iff.1 h
    exact decodeDocument_of_no_attributes hs rfl rfl
  refine ⟨.ofForest t.children, isRead_ofForest h, hlabels, fun n hn => ?_, b,
    .ofForest t.children, hb, isRead_ofForest hread, by rw [hlabels, hread], ?_,
    by rw [hlabels, hb]⟩
  · have hfound := n.alive
    rw [hn, Document.subtree_eq_ok_iff rfl] at hfound
    have htree : n.tree.labels.Sendable := by
      refine Tree.Sendable.find? (t := (Document.ofForest t.children).tree) ?_ hfound
      rwa [← Document.labels, hlabels]
    exact ⟨_, n.tree.labels.encode_eq_ok_iff.2 ⟨htree, rfl⟩⟩
  · rw [Document.sameShape, Tree.sameAs_iff]

/-- Children behind an end of children, attributes behind children, and kinds in units that have no
use for them. -/
def unusual : List WireUnit :=
  [.node .child .element "a" "", .node .child .element "b" "", .node .child .data "" "x",
    .close .pi, .attr .comment "k" "v", .node .child .data "" "y", .close .data, .close .document]

theorem decodeDocument_unusual : decodeDocument (unusual.flatMap WireUnit.bytes ++ [7]) =
    (.ok ⟨.document, .cons (.element "a" "") (.cons ((Label.element "b" "").addAttribute "k" "v")
      (.cons (.plain .data "" "x") .nil (.cons (.plain .data "" "y") .nil .nil)) .nil) .nil⟩,
      [7]) := by
  have hfits : ∀ u ∈ unusual, u.Fits := by
    have hshort : ∀ s ∈ ["", "a", "b", "x", "y", "k", "v"], Short s := by
      unfold Short
      decide
    simp [unusual, WireUnit.Fits, hshort]
  let n : OpenNode := ⟨⟨.element, "b", "", [⟨"k", "v"⟩]⟩,
    .cons (.plain .data "" "y") .nil (.cons (.plain .data "" "x") .nil .nil)⟩
  have hcompletes : Assembly.start.Completes true unusual
      ⟨true, false, .nil, [⟨.element "a" "", .cons n.finished n.children.reverse .nil⟩]⟩ :=
    ⟨unusual.dropLast, .close .document, ⟨true, false, .nil, [n, ⟨.element "a" "", .nil⟩]⟩, rfl,
      .cons rfl (.cons rfl (.cons rfl (.cons rfl (.cons rfl (.cons rfl (.cons rfl (.refl _))))))),
      rfl⟩
  rw [decodeDocument_eq, bind_of_ok (assembled_eq_ok_iff.2 ⟨unusual, hfits, hcompletes, rfl⟩),
    Assembly.forest, Assembly.forest.go]
  rfl

theorem decodeDocument_normal_unusual :
    ∃ t, decodeDocument (unusual.flatMap WireUnit.bytes ++ [7]) = (.ok t, [7]) ∧
      ∃ d, IsRead (unusual.flatMap WireUnit.bytes ++ [7]) d [7] ∧ d.labels = t ∧
        (∀ n : LiveNode, n.document = d → ∃ b, n.encode = .ok b) ∧
        ∃ b d', t.encode = .ok b ∧ IsRead b d' [] ∧ decodeDocument b = (.ok d'.labels, []) ∧
          d'.sameShape d = true ∧ d'.labels.encode = .ok b :=
  ⟨_, decodeDocument_unusual, decodeDocument_normal decodeDocument_unusual⟩

end Wire

end Treegram
