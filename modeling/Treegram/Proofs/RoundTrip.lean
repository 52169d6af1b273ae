import Mathlib.Data.List.Forall2
import Treegram.Proofs.Stacking
import Treegram.Wire.Decode

/-!
# What is sent is read back

A message is read back from its bytes up to the last of them (`decodeDocument_units`), whatever
follows; so messages sent back to back come in one by one (`decodeDocuments_flatMap`). What comes
in is the tree that was sent, below a document node, or for a document node that is plain the node
itself.
-/

namespace Treegram

/-! ## Equal trees -/

theorem Forest.alike_iff {α β γ : Type} [DecidableEq γ] (g : α → γ) (h : β → γ) :
    ∀ (f : Forest α) (f' : Forest β),
      f.alike (fun a b => decide (g a = h b)) f' = true ↔ f.map g = f'.map h
  | .nil, .nil => by simp [alike, map]
  | .nil, .cons .. => by simp [alike, map]
  | .cons .., .nil => by simp [alike, map]
  | .cons a kids rest, .cons b kids' rest' => by
    simp only [alike, map, Bool.and_eq_true, decide_eq_true_eq, alike_iff g h kids kids',
      alike_iff g h rest rest', Forest.cons.injEq, and_assoc]

/-- Two trees agree exactly if their labels do, at every place. -/
theorem Tree.sameAs_iff {α β : Type} [Labelled α] [Labelled β] (t : Tree α) (u : Tree β) :
    t.sameAs u = true ↔ t.labels = u.labels := by
  simp only [sameAs, alike, labels, map, Bool.and_eq_true, decide_eq_true_eq, Forest.alike_iff,
    Tree.mk.injEq]

theorem Forest.map_label (f : Forest Label) : f.map label = f := by
  induction f with
  | nil => rfl
  | cons l kids rest ihk ihr => rw [map, ihk, ihr]; rfl

@[simp] theorem Tree.labels_label (t : Tree Label) : t.labels = t := by
  rw [labels, map, Forest.map_label]
  rfl

namespace Wire

variable {σ : Type} [ByteSource σ]

/-! ## Reading one message -/

theorem assemble_of_readUnit {below : Bool} {a : Assembly} {s s' : σ} {u : WireUnit}
    (h : readUnit s = (.ok u, s')) :
    assemble below a s =
      match a.step below u with
      | .error cause => ((a, some (.malformed cause)), s')
      | .ok (.complete a') => ((a', none), s')
      | .ok (.more a') => assemble below a' s' := by
  rw [assemble]
  split <;> rename_i h' <;> rw [h] at h'
  · simp at h'
  · simp only [Prod.mk.injEq, Except.ok.injEq] at h'
    obtain ⟨rfl, rfl⟩ := h'
    rfl

theorem assemble_of_error {below : Bool} {a : Assembly} {s s' : σ} {e : Fault}
    (h : readUnit s = (.error e, s')) : assemble below a s = ((a, some e), s') := by
  rw [assemble]
  split <;> rename_i h' <;> rw [h] at h'
  · simp only [Prod.mk.injEq, Except.error.injEq] at h'
    obtain ⟨rfl, rfl⟩ := h'
    rfl
  · simp at h'

theorem assemble_leads {below : Bool} {a b : Assembly} {us : List WireUnit}
    (h : a.Leads below us b) (hf : ∀ u ∈ us, u.Fits) (rest : Bytes) :
    assemble below a (us.flatMap WireUnit.bytes ++ rest) = assemble below b rest := by
  induction h with
  | refl a => rfl
  | cons hs _ ih =>
    rw [List.forall_mem_cons] at hf
    rw [List.flatMap_cons, List.append_assoc, assemble_of_readUnit (readUnit_bytes hf.1 _), hs]
    exact ih hf.2

theorem assemble_completes {below : Bool} {a b : Assembly} {us : List WireUnit}
    (h : a.Completes below us b) (hf : ∀ u ∈ us, u.Fits) (rest : Bytes) :
    assemble below a (us.flatMap WireUnit.bytes ++ rest) = ((b, none), rest) := by
  obtain ⟨vs, u, c, rfl, hc, hu⟩ := h
  rw [List.forall_mem_append, List.forall_mem_singleton] at hf
  rw [List.flatMap_append, List.flatMap_singleton, List.append_assoc, assemble_leads hc hf.1,
    assemble_of_readUnit (readUnit_bytes hf.2 _), hu]

/-- A tree that can be sent is read back from its units, below a document node unless it is one
itself, and what follows them is left. -/
theorem decodeDocument_units {t : Tree Label} (ht : t.Sendable)
    (hattrs : t.node.kind = .document → t.node.attributes = []) (rest : Bytes) :
    decodeDocument (t.units.flatMap WireUnit.bytes ++ rest) =
      (.ok ⟨.document, if t.node.kind = .document then t.children else .single t⟩, rest) := by
  obtain ⟨b, hb, hforest⟩ := Assembly.completes_units ht hattrs
  have hdecode : decode true (t.units.flatMap WireUnit.bytes ++ rest) =
      (⟨b.forest, b.isDocument, none⟩, rest) := by
    rw [decode, assemble_completes hb ht.fits]
  rw [decodeDocument, hdecode, hforest]

/-- A tree that is no document is read back from its units alone. -/
theorem decodeDocument_single {t : Tree Label} (ht : t.Sendable) (hk : t.node.kind ≠ .document) :
    decodeDocument (t.units.flatMap WireUnit.bytes) = (.ok ⟨.document, .single t⟩, []) := by
  have h := decodeDocument_units ht (fun hd => absurd hd hk) []
  rwa [List.append_nil, if_neg hk] at h

/-! ## Reading messages back to back -/

/-- Reads so many messages, one after the other. -/
def decodeDocuments : Nat → Reading σ (List (Tree Label))
  | 0 => pure []
  | n + 1 => do return (← decodeDocument) :: (← decodeDocuments n)

theorem decodeDocuments_succ {s s' : σ} {t : Tree Label} (h : decodeDocument s = (.ok t, s'))
    {n : Nat} {ts : List (Tree Label)} {s'' : σ} (hs : decodeDocuments n s' = (.ok ts, s'')) :
    decodeDocuments (n + 1) s = (.ok (t :: ts), s'') := by
  rw [decodeDocuments, bind_of_ok h, bind_of_ok hs]
  rfl

/-- Messages that are read back whatever follows are read back one after the other. -/
theorem decodeDocuments_flatMap {α : Type} (message : α → Bytes) (document : α → Tree Label) :
    ∀ (xs : List α), (∀ x ∈ xs, ∀ rest, decodeDocument (message x ++ rest) =
      (.ok (document x), rest)) → ∀ rest, decodeDocuments xs.length (xs.flatMap message ++ rest) =
        (.ok (xs.map document), rest)
  | [], _, _ => rfl
  | x :: xs, h, rest => by
    rw [List.forall_mem_cons] at h
    rw [List.flatMap_cons, List.append_assoc, List.length_cons]
    exact decodeDocuments_succ (h.1 _) (decodeDocuments_flatMap message document xs h.2 rest)

end Wire

/-! ## Nodes of documents -/

/-- A document node that is named as it should be is plain but for its value and its attributes. -/
theorem Label.eq_document_iff {l : Label} (hk : l.kind = .document)
    (hname : nameFault? l.kind l.name = none) :
    l = .document ↔ l.value = "" ∧ l.attributes = [] := by
  obtain ⟨kind, name, value, attributes⟩ := l
  subst hk
  obtain rfl : name = "" := by
    by_contra h
    simp [nameFault?, NodeKind.requiresName, h] at hname
  simp [document, plain]

/-- A node of a document that is alive, with the tree of which it is the top. -/
structure LiveNode where
  document : Document
  id : NodeId
  tree : Tree Node
  alive : document.subtree id = .ok tree

namespace LiveNode

/-- The message that holds the node and what is below it. -/
def encode (n : LiveNode) : Except Refusal Bytes :=
  n.tree.labels.encode

def kind (n : LiveNode) : NodeKind :=
  n.tree.node.label.kind

/-- Whether the node, if it is a document node, carries nothing but its children. -/
def IsPlain (n : LiveNode) : Prop :=
  n.kind = .document → n.tree.node.label.value = "" ∧ n.tree.node.label.attributes = []

/-- Whether the document that was read holds the node, as its only child or, if the node is a
document node, in its place. -/
def HeldBy (n : LiveNode) (d : Tree Label) : Prop :=
  if n.kind = .document then d.sameAs n.tree = true
  else ∃ c, d.children.trees = [c] ∧ c.sameAs n.tree = true

/-- What is read of a message that holds the node. -/
def received (n : LiveNode) : Tree Label :=
  ⟨.document, if n.kind = .document then n.tree.labels.children else .single n.tree.labels⟩

variable {n : LiveNode} {b : Bytes}

theorem decodeDocument_encode (hp : n.IsPlain) (h : n.encode = .ok b) (rest : Bytes) :
    Wire.decodeDocument (b ++ rest) = (.ok n.received, rest) := by
  obtain ⟨hs, rfl⟩ := n.tree.labels.encode_eq_ok_iff.1 h
  exact Wire.decodeDocument_units hs (fun hk => (hp hk).2) rest

theorem heldBy_received (hp : n.IsPlain) (h : n.encode = .ok b) : n.HeldBy n.received := by
  obtain ⟨hs, -⟩ := n.tree.labels.encode_eq_ok_iff.1 h
  unfold HeldBy received
  by_cases hk : n.kind = .document
  · have hlabel : n.tree.node.label = .document :=
      (Label.eq_document_iff hk hs.1.named).2 (hp hk)
    rw [if_pos hk, if_pos hk, Tree.sameAs_iff, Tree.labels_label, ← hlabel]
    rfl
  · rw [if_neg hk, if_neg hk]
    exact ⟨n.tree.labels, rfl, by simp [Tree.sameAs_iff]⟩

/-- A message that holds a live node is read back up to its last byte, whatever follows it, and
holds the same tree; messages back to back are read back one after the other. -/
theorem decode_encode :
    (∀ (n : LiveNode) (b rest : Bytes), n.IsPlain → n.encode = .ok b →
      ∃ d, Wire.decodeDocument (b ++ rest) = (.ok d, rest) ∧ n.HeldBy d) ∧
    ∀ (ns : List (LiveNode × Bytes)) (rest : Bytes),
      (∀ p ∈ ns, p.1.IsPlain ∧ p.1.encode = .ok p.2) →
      ∃ ds, Wire.decodeDocuments ns.length (ns.flatMap Prod.snd ++ rest) = (.ok ds, rest) ∧
        List.Forall₂ (fun p d => p.1.HeldBy d) ns ds := by
  refine ⟨fun n b rest hp h => ⟨_, decodeDocument_encode hp h rest, heldBy_received hp h⟩,
    fun ns rest h => ⟨ns.map fun p => p.1.received, ?_, ?_⟩⟩
  · exact Wire.decodeDocuments_flatMap Prod.snd _ ns
      (fun p hp => decodeDocument_encode (h p hp).1 (h p hp).2) rest
  · rw [List.forall₂_map_right_iff, List.forall₂_same]
    exact fun p hp => heldBy_received (h p hp).1 (h p hp).2

/-- An element with an attribute, a text and an empty element below it. -/
def sampleDocument : Document :=
  .ofForest (.cons ((Label.element "a" "é").addAttribute "k" "")
    (.cons (.plain .data "" "x") .nil (.cons (.element "b" "") .nil .nil)) .nil)

theorem decode_encode_sample :
    ∃ (n k : LiveNode) (b c : Bytes),
      (n.document = sampleDocument ∧ n.kind = .element ∧ n.IsPlain ∧ n.encode = .ok b) ∧
      (k.document = sampleDocument ∧ k.kind = .document ∧ k.IsPlain ∧ k.encode = .ok c) ∧
      (∃ d, Wire.decodeDocument (b ++ [255]) = (.ok d, [255]) ∧ n.HeldBy d) ∧
      ∃ ds, Wire.decodeDocuments 2 ([(n, b), (k, c)].flatMap Prod.snd ++ [255]) =
          (.ok ds, [255]) ∧
        List.Forall₂ (fun p d => p.1.HeldBy d) [(n, b), (k, c)] ds := by
  let n : LiveNode := ⟨sampleDocument, ⟨1⟩, _, rfl⟩
  let k : LiveNode := ⟨sampleDocument, ⟨0⟩, _, rfl⟩
  have hn : n.IsPlain := fun h => absurd h (by decide)
  have hk : k.IsPlain := fun _ => ⟨rfl, rfl⟩
  refine ⟨n, k, _, _, ⟨rfl, rfl, hn, rfl⟩, ⟨rfl, rfl, hk, rfl⟩,
    decode_encode.1 n _ [255] hn rfl, decode_encode.2 [(n, _), (k, _)] [255] ?_⟩
  simp only [List.forall_mem_cons]
  exact ⟨⟨hn, rfl⟩, ⟨hk, rfl⟩, by simp⟩

end LiveNode

end Treegram
