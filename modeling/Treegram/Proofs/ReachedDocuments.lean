import Treegram.Proofs.DecodeEffects

/-!
# Documents that are reached

A document is reached from an empty one by edits of nodes that live and by messages that are read
below such nodes, whether they are read to their end or not (`Reached`). However it was reached,
its linked nodes are those of a tree without strays (`Reached.holds`), with a document node at its
top (`Reached.topKind`); so each live node stands in its place, with all that is below it linked as
it should be (`ReachedNode.standing`).
-/

namespace Treegram

/-- Whether the linked nodes and the document are what the same calls, each for a live node, make
of nothing but a document node. -/
inductive Reached : LinkedDocument → Document → Prop
  | empty : Reached .empty .empty
  | edit {c c' : LinkedDocument} {d : Document} {e : Edit} : Reached c d → d.accepts e = true →
    c.edit e = some c' → Reached c' (d.edit e)
  | decode {σ : Type} [ByteSource σ] {c c' : LinkedDocument} {d d' : Document} {parent : NodeId}
    {s rest rest' : σ} {halted : Except Halt NodeId} {result : Except Fault NodeId} :
    Reached c d → d.contains parent = true → c.decode parent s = some ((c', halted), rest) →
    Wire.decodeInto d parent s = .ok ((d', result), rest') → Reached c' d'

theorem Reached.holds {c : LinkedDocument} {d : Document} (h : Reached c d) : c.Holds d := by
  induction h with
  | empty => exact LinkedDocument.holds_empty
  | edit _ he hc ih =>
    obtain ⟨c₁, hc₁, h₁⟩ := ih.edit he
    obtain rfl := Option.some.inj (hc.symm.trans hc₁)
    exact h₁
  | @decode _ _ _ _ _ _ parent s _ _ _ _ _ hp hc hd ih =>
    obtain ⟨spot, front, n, kids, back, rfl, hf⟩ := Spot.exists_fill ((ih.contains parent).1 hp)
    obtain ⟨c₁, d₁, hc₁, hd₁, -, h₁, -⟩ := ih.decode hf s
    rw [hc, Option.some.injEq, Prod.mk.injEq, Prod.mk.injEq] at hc₁
    rw [hd, Except.ok.injEq, Prod.mk.injEq, Prod.mk.injEq] at hd₁
    obtain ⟨⟨rfl, -⟩, -⟩ := hc₁
    obtain ⟨⟨rfl, -⟩, -⟩ := hd₁
    exact h₁

/-- Every run of edits of live nodes reaches a document. -/
theorem Reached.run : ∀ (es : List Edit) {c : LinkedDocument} {d : Document}, Reached c d →
    d.acceptsAll es = true → ∃ c', c.run es = some c' ∧ Reached c' (es.foldl Document.edit d)
  | [], c, _, h, _ => ⟨c, rfl, h⟩
  | e :: es, c, d, h, ha => by
    rw [Document.acceptsAll, Bool.and_eq_true] at ha
    obtain ⟨c₁, hc₁, -⟩ := h.holds.edit ha.1
    obtain ⟨c', hc', h'⟩ := Reached.run es (h.edit ha.1 hc₁) ha.2
    refine ⟨c', ?_, h'⟩
    rw [LinkedDocument.run, hc₁]
    exact hc'

/-! ## The document node -/

namespace Document

variable {d d' : Document} {id : NodeId}

def topKind (d : Document) : NodeKind :=
  d.tree.node.label.kind

theorem topKind_relabel {g : Label → Label} (hg : ∀ l, (g l).kind = l.kind) :
    ((d.relabel id g).toOption.getD d).topKind = d.topKind := by
  unfold relabel
  split
  · show (d.tree.relabel id g).node.label.kind = _
    unfold Tree.relabel
    dsimp only
    split
    · exact hg _
    · rfl
  · rfl

theorem topKind_graft {f : Forest Label} (h : d.graft id f = .ok d') : d'.topKind = d.topKind := by
  unfold graft at h
  split at h
  · rw [← Except.ok.inj h]
    rfl
  · simp at h

theorem topKind_remove (h : d.remove id = .ok d') : d'.topKind = d.topKind := by
  unfold remove at h
  split at h
  · simp at h
  · split at h
    · rw [← Except.ok.inj h]
      rfl
    · split at h
      · rw [← Except.ok.inj h]
        rfl
      · simp at h

theorem topKind_removeAll : ∀ (ids : List NodeId) (d : Document),
    (d.removeAll ids).topKind = d.topKind
  | [], _ => rfl
  | id :: ids, d => by
    rw [removeAll]
    split
    · rename_i d' h
      rw [topKind_removeAll ids, topKind_remove h]
    · rfl

/-- An edit does not change what kind of node is at the top. -/
theorem topKind_edit (d : Document) (e : Edit) : (d.edit e).topKind = d.topKind := by
  cases e with
  | appendChild parent kind name value =>
    simp only [edit, appendChild]
    split
    · rename_i d' h
      exact topKind_graft h
    · split <;> rfl
  | insertBefore before kind name value =>
    simp only [edit]
    split
    · rename_i d' new h
      unfold insertBefore at h
      split at h
      · simp at h
      · split at h
        · rw [← (Prod.mk.inj (Except.ok.inj h)).1]
          rfl
        · simp at h
    · rfl
  | remove id =>
    simp only [edit]
    rcases h : d.remove id with _ | d'
    · rfl
    · exact topKind_remove h
  | removeChildren id =>
    simp only [edit, removeChildren]
    split
    · exact topKind_removeAll _ _
    · rfl
  | setName id name => exact topKind_relabel fun _ => rfl
  | setValue id value => exact topKind_relabel fun _ => rfl
  | appendAttribute id name value => exact topKind_relabel fun _ => rfl
  | removeAttribute id name =>
    have h : ((d.relabel id fun l => l.dropAttribute name).toOption.getD d).topKind = d.topKind :=
      topKind_relabel fun _ => rfl
    simp only [edit, removeAttribute]
    rcases hs : d.subtree id with _ | t
    · rfl
    · rcases hr : d.relabel id (fun l => l.dropAttribute name) with _ | d'
      · simp [bind, Except.bind]
      · rw [hr] at h
        exact h

end Document

theorem Wire.topKind_decodeInto {σ : Type} [ByteSource σ] {d d' : Document} {parent : NodeId}
    {s rest : σ} {result : Except Fault NodeId}
    (h : decodeInto d parent s = .ok ((d', result), rest)) : d'.topKind = d.topKind := by
  unfold decodeInto at h
  rcases hs : d.subtree parent with _ | t
  · simp [hs, bind, Except.bind] at h
  · rw [hs] at h
    simp only [bind, Except.bind] at h
    split at h
    · simp at h
    · rename_i hg
      simp [pure, Except.pure] at h
      obtain ⟨⟨rfl, -⟩, -⟩ := h
      exact Document.topKind_graft hg

theorem Reached.topKind {c : LinkedDocument} {d : Document} (h : Reached c d) :
    d.topKind = .document := by
  induction h with
  | empty => rfl
  | edit _ _ _ ih => rw [Document.topKind_edit, ih]
  | decode _ _ _ hd ih => rw [Wire.topKind_decodeInto hd, ih]

/-! ## Live nodes -/

structure ReachedDocument where
  links : LinkedDocument
  document : Document
  reached : Reached links document

/-- A live node of a document that was reached, with the tree of which it is the top. -/
structure ReachedNode extends ReachedDocument where
  id : NodeId
  tree : Tree Node
  alive : document.subtree id = .ok tree

theorem ReachedDocument.holds (d : ReachedDocument) : d.links.Holds d.document :=
  d.reached.holds

def ReachedDocument.root (d : ReachedDocument) : ReachedNode where
  toReachedDocument := d
  id := d.document.root
  tree := d.document.tree
  alive := by
    unfold Document.subtree Document.subtree? Tree.find?
    rw [if_pos (by simp [Document.root])]

namespace ReachedNode

variable (n : ReachedNode)

theorem exists_place : ∃ (s : Spot) (front back : Forest Node), n.tree.node.id = n.id ∧
    n.document.forest = s.fill (front ++ .cons n.tree.node n.tree.children back) := by
  -- no node is beside the tree, so what is found by its identity is found in the forest
  have hfound : n.document.forest.subtree? n.id = some n.tree := by
    rw [Document.subtree?_forest]
    exact (Document.subtree_eq_ok_iff n.holds.strays).1 n.alive
  have hid : n.id ∈ n.document.forest.ids := by
    by_contra hid
    simp [Forest.subtree?_of_not_mem hid] at hfound
  obtain ⟨s, front, m, kids, back, hm, hf⟩ := Spot.exists_fill hid
  have hnodup := n.holds.nodup
  rw [hf] at hnodup hfound
  rw [← hm, Spot.subtree?_fill hnodup] at hfound
  have htree := Option.some.inj hfound
  rw [← htree]
  exact ⟨s, front, back, hm, hf⟩

/-- The node and all that is below it are linked as they stand. -/
theorem standing : Standing n.links.get? n.tree := by
  obtain ⟨s, front, back, -, hf⟩ := n.exists_place
  obtain ⟨-, -, hn, hkids, -⟩ := n.holds.at_node hf
  exact ⟨⟨_, _, _, hn⟩, hkids⟩

theorem node_id : n.tree.node.id = n.id := by
  obtain ⟨-, -, -, hid, -⟩ := n.exists_place
  exact hid

end ReachedNode

end Treegram
