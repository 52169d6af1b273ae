import Treegram.Proofs.DocumentSizes
import Treegram.Proofs.DraftedRequests
import Treegram.Proofs.MessageLengths

/-!
# Requests that were accepted

A request looks at names as they come in, and only at whether there are any; the encoder looks at
all of a message again. Nothing gets past the first that would be stopped by the second, but a text
that is too long: below the document node of a request there are elements with names, and attributes
with names, and nothing else (`Proper.of_permits`). So what was accepted is sent, the peer reads
back what was sent, and requests with the same bytes are the same (`accepted_sent`).
-/

namespace Treegram

/-! ## Labels of nodes -/

/-- What is told of a node of a forest tells its label. -/
theorem Forest.view?_of_mem_nodes {n : Node} : ∀ {f : Forest Node} (parent : Option NodeId),
    f.ids.Nodup → n ∈ f.nodes → ∃ v, f.view? n.id parent = some v ∧ v.label = n.label
  | .cons m kids rest, parent, hd, hn => by
    rw [ids_cons, List.nodup_cons, List.nodup_append', List.mem_append, not_or] at hd
    obtain ⟨⟨hkids, hrest⟩, hdkids, hdrest, hdisj⟩ := hd
    have hid : ∀ {g : Forest Node}, n ∈ g.nodes → n.id ∈ g.ids := List.mem_map_of_mem
    rw [nodes, List.mem_cons, List.mem_append] at hn
    rw [view?]
    rcases hn with rfl | hn | hn
    · exact ⟨_, if_pos rfl, rfl⟩
    · have hne : m.id ≠ n.id := fun heq => hkids (heq ▸ hid hn)
      obtain ⟨v, hv, hlabel⟩ := view?_of_mem_nodes (some m.id) hdkids hn
      exact ⟨v, by rw [if_neg hne, hv]; rfl, hlabel⟩
    · have hne : m.id ≠ n.id := fun heq => hrest (heq ▸ hid hn)
      obtain ⟨v, hv, hlabel⟩ := view?_of_mem_nodes parent hdrest hn
      refine ⟨v, ?_, hlabel⟩
      rw [if_neg hne, view?_of_not_mem fun hmem => hdisj hmem (hid hn), Option.none_or, hv]

namespace Label

theorem isProper_element {name : String} (h : name ≠ "") (value : String) :
    (element name value).IsProper :=
  ⟨rfl, h, by simp [element, plain]⟩

theorem IsProper.addAttribute {l : Label} (h : l.IsProper) {name : String} (hname : name ≠ "")
    (value : String) : (l.addAttribute name value).IsProper :=
  ⟨h.1, h.2.1, List.forall_mem_append.2 ⟨h.2.2, List.forall_mem_singleton.2 hname⟩⟩

end Label

theorem Document.subtree_eq_iff {d : Document} {id : NodeId} {t : Tree Node} :
    d.subtree id = .ok t ↔ d.subtree? id = some t := by
  rw [subtree]
  cases d.subtree? id <;> simp

/-- A document of one tree has one node below the document node. -/
theorem Document.exists_child {d : Document} {u : Tree Label}
    (h : d.labels = ⟨.document, .single u⟩) : ∃ root m kids,
      d.tree = ⟨root, .cons m kids .nil⟩ ∧ Tree.labels ⟨m, kids⟩ = u := by
  rw [labels, Tree.labels, Tree.map, Tree.mk.injEq] at h
  obtain ⟨-, h⟩ := h
  rcases ht : d.tree with ⟨root, _ | ⟨m, kids, rest⟩⟩ <;> rw [ht] at h
  · simp [Forest.map, Forest.single] at h
  · obtain ⟨hlabel, hkids, hrest⟩ := Forest.cons.inj h
    rcases rest with _ | ⟨k, below, rest⟩
    · exact ⟨root, m, kids, rfl, congrArg₂ Tree.mk hlabel hkids⟩
    · simp [Forest.map] at hrest

theorem Tree.nodes_labels (t : Tree Node) : t.labels.nodes = t.nodes.map Node.label := by
  rw [labels, map, nodes, nodes, Forest.nodes_map, List.map_cons]
  rfl

/-- Named elements have a message exactly if none of their texts is too long. -/
theorem Tree.encodable_iff {t : Tree Label} (h : ∀ l ∈ t.nodes, l.IsProper) : t.Encodable ↔
    ∀ l ∈ t.nodes, ∀ s ∈ l.texts, s.utf8ByteSize ≤ 16 * 1024 * 1024 where
  mp h := h.short
  mpr hshort :=
    { below := fun l hl hk => by
        rw [(h l (List.mem_cons_of_mem _ hl)).1] at hk
        simp at hk
      named := fun l hl => iff_of_true (h l hl).2.1 (.inl (h l hl).1)
      attributes := fun l hl => (h l hl).2.2
      short := hshort }

namespace Request

/-- Whether all that is below the document node are elements that are named, as are their
attributes. -/
def Proper (d : Document) : Prop :=
  ∀ id n, d.view id = some n → id ≠ d.root → n.label.IsProper

variable {c : LinkedRequest} {r : Request} {d : Document} {id : NodeId} {t : Tree Node}

theorem Proper.of_permits (h : Proper r.document) (hd : r.Permits d) : Proper d := by
  intro id n' hn' hid
  rcases hn : r.document.view id with _ | n
  · exact hd.new id n' hn hn'
  · obtain ⟨n'', hn'', hgrown⟩ := hd.kept id n hn
    obtain rfl := Option.some.inj (hn''.symm.trans hn')
    exact hgrown.isProper (h id n hn (by rwa [← hd.root]))

theorem Proper.of_mem (hd : Proper r.document) (h : c.Holds r) (hid : id ≠ r.document.root)
    (ht : r.document.subtree id = .ok t) : ∀ n ∈ t.nodes, n.label.IsProper := by
  intro n hn
  have hnodup := h.reached.holds.nodup
  have hroot : (r.document.tree.node.id == id) = false := beq_eq_false_iff_ne.2 hid.symm
  rw [Document.subtree_eq_ok_iff h.reached.holds.strays, Tree.find?, hroot,
    if_neg Bool.false_ne_true] at ht
  have hmem := Forest.nodes_find?_subset ht hn
  have hforest : n ∈ r.document.forest.nodes :=
    List.mem_cons_of_mem _ (List.mem_append_left _ hmem)
  obtain ⟨v, hv, hlabel⟩ := Forest.view?_of_mem_nodes none hnodup hforest
  rw [← hlabel]
  refine hd n.id v (by rw [h.reached.holds.view]; exact hv) fun heq => ?_
  -- the document node is none of those below it
  rw [Document.forest, Forest.single, Forest.ids_cons, List.nodup_cons, List.mem_append] at hnodup
  have hid : n.id ∈ r.document.tree.children.ids := List.mem_map_of_mem hmem
  rw [heq] at hid
  exact hnodup.1 (.inl hid)

/-! ## New requests -/

/-- Whether the command element of a new request is named. -/
def Origin.IsNamed : Origin → Prop
  | new .. | hello .. => True
  | bare _ name => name ≠ ""
  | withValue _ name _ => name ≠ ""

theorem proper_ofForest {f : Forest Label}
    (h : (Document.ofForest f).view = (Document.ofForest f).forest.view)
    (hf : ∀ l ∈ f.nodes, l.IsProper) : Proper (.ofForest f) := by
  intro id n hn hid
  have hne : (Document.ofForest f).tree.node.id ≠ id := hid.symm
  rw [h, Document.forest, Forest.single, Forest.view, Forest.view?, if_neg hne, Forest.view?,
    Option.or_none] at hn
  exact hf _ (Document.mem_of_view?_number hn)

theorem proper_make {agent : String} {kind : Option RequestKind} {l : Label} {parts : List Label}
    (h : c.Holds (make agent kind l parts)) (hl : l.IsProper)
    (hparts : ∀ part ∈ parts, part.IsProper) : Proper (make agent kind l parts).document := by
  have hnodes : ∀ parts : List Label,
      (parts.foldr (fun part f => Forest.cons part .nil f) .nil).nodes = parts := by
    intro parts
    induction parts with
    | nil => rfl
    | cons part parts ih => rw [List.foldr_cons, Forest.nodes, ih]; rfl
  refine proper_ofForest h.reached.holds.view ?_
  simp only [Forest.nodes, hnodes, List.append_nil, List.forall_mem_cons]
  exact ⟨(Label.isProper_element (by decide) _).addAttribute (by decide) _, hl, hparts⟩

theorem proper_origin {o : Origin} (h : c.Holds o.request) (ho : o.IsNamed) :
    Proper o.request.document := by
  cases o with
  | new agent kind command =>
    refine proper_make h ?_ (by simp)
    cases kind with
    | parse => exact Label.isProper_element (by decide) _
    | config | execute => exact (Label.isProper_element (by decide) _).addAttribute (by decide) _
  | bare agent name => exact proper_make h (Label.isProper_element ho _) (by simp)
  | withValue agent name value => exact proper_make h (Label.isProper_element ho _) (by simp)
  | hello agent user password tag =>
    refine proper_make h (Label.isProper_element (by decide) _) ?_
    simp only [List.forall_mem_cons, List.not_mem_nil, false_imp_iff, implies_true, and_true]
    exact ⟨Label.isProper_element (by decide) _, Label.isProper_element (by decide) _,
      Label.isProper_element (by decide) _⟩

/-! ## What is sent -/

/-- Whether all of a message is read as a document of one element, which agrees with the request
element. -/
structure ReadsBack (c : LinkedRequest) (b : Bytes) (read : ReachedDocument) (child : NodeId) :
    Prop where
  document : Wire.decodeDocument b = (.ok read.document.labels, [])
  links : ∃ top,
    LinkedDocument.empty.decode Document.empty.root b = some ((read.links, .ok top), [])
  only : read.document.children read.document.root = .ok [child]
  element : ∃ n, read.document.view child = some n ∧ n.label.kind = .element
  same : read.links.sameSubtree child c.document c.request = some true

/-- A request that is made up of named elements, with the tree of its request element. -/
structure Sound (c : LinkedRequest) (r : Request) (t : Tree Node) : Prop where
  holds : c.Holds r
  alive : r.document.subtree r.request = .ok t
  proper : ∀ l ∈ t.labels.nodes, l.IsProper

theorem Composition.exists_sound (m : Composition) (hm : m.origin.IsNamed) :
    ∃ c t, m.linked = some c ∧ Sound c m.request t := by
  obtain ⟨c₀, -, h₀⟩ := exists_linked m.origin
  obtain ⟨c, d, hc, htracks, hrequest, hpermits⟩ := m.exists_tracks
  obtain ⟨hlive, hid⟩ := htracks.known _ htracks.request
  have hproper := (proper_origin h₀ hm).of_permits hpermits
  have hd : m.request.document = d := by rw [hrequest]
  rw [← hd] at hproper
  obtain ⟨t, ht⟩ := Option.isSome_iff_exists.1 hlive
  have halive : m.request.document.subtree m.request.request = .ok t :=
    Document.subtree_eq_iff.2 ht
  refine ⟨c, t, hc, htracks.holds, halive, fun l hl => ?_⟩
  rw [t.nodes_labels] at hl
  obtain ⟨n, hn, rfl⟩ := List.mem_map.1 hl
  exact hproper.of_mem htracks.holds hid halive n hn

namespace Sound

variable (h : Sound c r t)

include h

/-- The request element, in a document that was reached. -/
theorem exists_node : ∃ n : ReachedNode, n.links = c.document ∧ n.document = r.document ∧
    n.id = c.request ∧ n.tree = t :=
  ⟨⟨⟨c.document, r.document, h.holds.reached⟩, r.request, t, h.alive⟩, rfl, rfl,
    h.holds.request.symm, rfl⟩

theorem encode_eq : r.encode = t.labels.encode.mapError .refused ∧ c.encode = some r.encode := by
  obtain ⟨n, hlinks, -, hid, htree⟩ := h.exists_node
  have hencode : r.encode = t.labels.encode.mapError .refused := by
    rw [Request.encode, labels?, Document.subtree_eq_iff.1 h.alive]
    rfl
  have hwrites := n.writesAs.encode
  rw [hlinks, hid, htree] at hwrites
  exact ⟨hencode, by rw [hencode]; exact hwrites⟩

theorem encode_eq_ok_iff {b : Bytes} : r.encode = .ok b ↔ t.labels.encode = .ok b := by
  rw [h.encode_eq.1]
  cases t.labels.encode <;> simp [Except.mapError]

theorem exists_encode_iff : (∃ b, r.encode = .ok b) ↔
    ∀ l ∈ t.labels.nodes, ∀ s ∈ l.texts, s.utf8ByteSize ≤ 16 * 1024 * 1024 := by
  simp only [h.encode_eq_ok_iff, t.labels.encodesTo.succeeds, Tree.encodable_iff h.proper]

theorem decodeDocument {b : Bytes} (hb : r.encode = .ok b) :
    Wire.decodeDocument b = (.ok ⟨.document, .single t.labels⟩, []) := by
  obtain ⟨hs, rfl⟩ := t.labels.encode_eq_ok_iff.1 (h.encode_eq_ok_iff.1 hb)
  refine Wire.decodeDocument_single hs ?_
  rw [(h.proper _ List.mem_cons_self).1]
  decide

theorem readsBack {b : Bytes} (hb : r.encode = .ok b) : ∃ read child, ReadsBack c b read child := by
  obtain ⟨read, top, hlinks, -, hlabels⟩ := ReachedDocument.exists_read (h.decodeDocument hb)
  obtain ⟨n, hclinks, -, hid, htree⟩ := h.exists_node
  obtain ⟨root, m, kids, htree', hkids⟩ := Document.exists_child hlabels
  have hroot : read.document.forest =
      Spot.top.fill (.nil ++ .cons root (.cons m kids .nil) .nil) := by
    rw [Document.forest, htree']
    rfl
  have hchild : read.document.forest =
      (Spot.under root .nil .nil .top).fill (.nil ++ .cons m kids .nil) := hroot
  have hnodup := read.holds.nodup
  rw [hchild] at hnodup
  let k : ReachedNode :=
    ⟨read, m.id, ⟨m, kids⟩, Document.subtree_eq_iff.2 (read.holds.subtree? hchild)⟩
  have hcompare : read.links.sameSubtree m.id n.links n.id = some (Tree.sameAs ⟨m, kids⟩ n.tree) :=
    k.compare_eq n
  refine ⟨read, m.id, by rw [h.decodeDocument hb, hlabels], ⟨top, hlinks⟩, ?_, ?_, ?_⟩
  · have hchildren := read.holds.children hroot
    rw [Document.root, htree']
    exact hchildren
  · refine ⟨⟨m.label, some root.id, kids.tops⟩, ?_, ?_⟩
    · rw [read.holds.view, hchild]
      exact Spot.view?_fill_node hnodup
    · have hproper := h.proper t.labels.node List.mem_cons_self
      rw [← hkids] at hproper
      exact hproper.1
  · rw [← hclinks, ← hid, hcompare, Option.some.injEq, Tree.sameAs_iff, htree]
    exact hkids

/-- Requests with the same bytes have the same request element. -/
theorem same_of_encode {c' : LinkedRequest} {r' : Request} {t' : Tree Node} (h' : Sound c' r' t')
    {b : Bytes} (hb : r.encode = .ok b) (hb' : r'.encode = .ok b) :
    c.document.sameSubtree c.request c'.document c'.request = some true := by
  have hread := (h.decodeDocument hb).symm.trans (h'.decodeDocument hb')
  obtain ⟨n, hlinks, -, hid, htree⟩ := h.exists_node
  obtain ⟨n', hlinks', -, hid', htree'⟩ := h'.exists_node
  have hcompare : n.links.sameSubtree n.id n'.links n'.id = some (n.tree.sameAs n'.tree) :=
    n.compare_eq n'
  rw [← hlinks, ← hid, ← hlinks', ← hid', hcompare, Option.some.injEq, Tree.sameAs_iff, htree,
    htree']
  have hsingle := congrArg Tree.children (Except.ok.inj (Prod.mk.inj hread).1)
  obtain ⟨hnode, hchildren, -⟩ := Forest.cons.inj hsingle
  exact congrArg₂ Tree.mk hnode hchildren

end Sound

/-- A request whose command element is named is sent, however it was made up, if none of its texts
is too long; what is sent is read back; and no other request is sent with the same bytes. -/
theorem accepted_sent :
    (∀ m : Composition, m.origin.IsNamed → ∃ c t, m.linked = some c ∧ c.Shows m.request ∧
      m.request.document.subtree m.request.request = .ok t ∧ c.encode = some m.request.encode ∧
      ((∃ b, m.request.encode = .ok b) ↔
        ∀ l ∈ t.labels.nodes, ∀ s ∈ l.texts, s.utf8ByteSize ≤ 16 * 1024 * 1024) ∧
      ∀ b, m.request.encode = .ok b → ∃ read child, ReadsBack c b read child) ∧
    ∀ (m m' : Composition) (b : Bytes), m.origin.IsNamed → m'.origin.IsNamed →
      m.request.encode = .ok b → m'.request.encode = .ok b → ∃ c c', m.linked = some c ∧
        m'.linked = some c' ∧
        c.document.sameSubtree c.request c'.document c'.request = some true := by
  refine ⟨fun m hm => ?_, fun m m' b hm hm' hb hb' => ?_⟩
  · obtain ⟨c, t, hc, hsound⟩ := m.exists_sound hm
    exact ⟨c, t, hc, hsound.holds.shows, hsound.alive, hsound.encode_eq.2,
      hsound.exists_encode_iff, fun b hb => hsound.readsBack hb⟩
  · obtain ⟨c, t, hc, hsound⟩ := m.exists_sound hm
    obtain ⟨c', t', hc', hsound'⟩ := m'.exists_sound hm'
    exact ⟨c, c', hc, hc', hsound.same_of_encode hsound' hb hb'⟩

/-- The same elements, made in another order and in other slots. -/
theorem accepted_sent_twice : ∃ (m m' : Composition) (b : Bytes),
    (m.origin = .bare "a" "x" ∧ m.steps = [.addArgument "k" "v", .addElement ⟨1⟩ "l" ""]) ∧
    (m'.origin = .withValue "a" "x" "" ∧
      m'.steps = [.addElement ⟨1⟩ "l" "", .addElement ⟨2⟩ "k" "v"]) ∧
    m.request.encode = .ok b ∧ m'.request.encode = .ok b ∧
    m.request.document ≠ m'.request.document ∧
    (∃ c read child, m.linked = some c ∧ ReadsBack c b read child) ∧
    ∃ c c', m.linked = some c ∧ m'.linked = some c' ∧
      c.document.sameSubtree c.request c'.document c'.request = some true := by
  let m : Composition := ⟨.bare "a" "x", [.addArgument "k" "v", .addElement ⟨1⟩ "l" ""], by decide⟩
  let m' : Composition :=
    ⟨.withValue "a" "x" "", [.addElement ⟨1⟩ "l" "", .addElement ⟨2⟩ "k" "v"], by decide⟩
  have hnamed : "x" ≠ "" := by decide
  obtain ⟨b, hb⟩ : ∃ b, m.request.encode = .ok b := ⟨_, rfl⟩
  have hb' : m'.request.encode = .ok b := by
    rw [← hb]
    rfl
  obtain ⟨hsent, hsame⟩ := accepted_sent
  obtain ⟨c, t, hc, -, -, -, -, hread⟩ := hsent m hnamed
  obtain ⟨read, child, hback⟩ := hread b hb
  exact ⟨m, m', b, ⟨rfl, rfl⟩, ⟨rfl, rfl⟩, hb, hb', by decide, ⟨c, read, child, hc, hback⟩,
    hsame m m' b hnamed hnamed hb hb'⟩

end Request

end Treegram
