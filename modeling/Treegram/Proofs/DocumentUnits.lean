import Treegram.Document.Linked
import Treegram.Proofs.ReadUnits

/-!
# What a document unit carries

A document node is written like any other, with its value and its attributes, but what is read of
its unit is only that it was there. So a document node that has a value comes back without it, and
one that has attributes is not read at all: the node that is read is the one that was written
exactly if that is plain (`decodeDocument_document`).
-/

namespace Treegram

namespace Wire

variable {t : Tree Label}

theorem assembled_bytes {u : WireUnit} (h : u.Fits) (below : Bool) (a : Assembly) (rest : Bytes) :
    assembled below a (u.bytes ++ rest) = proceed below (a.step below u) rest := by
  rw [assembled_eq, bind_of_ok (readUnit_bytes h rest)]

/-- A document unit leaves nothing open that an attribute could go to. -/
theorem decodeDocument_of_attributes (ht : t.Sendable) (hk : t.node.kind = .document)
    (hattrs : t.node.attributes ≠ []) :
    ∃ rest, decodeDocument (t.units.flatMap WireUnit.bytes) =
      (.error (.malformed .topAttribute), rest) := by
  obtain ⟨⟨kind, name, value, attributes⟩, kids⟩ := t
  obtain ⟨⟨k, v⟩, attrs, rfl⟩ := List.exists_cons_of_ne_nil hattrs
  subst hk
  obtain ⟨us, hus⟩ : ∃ us, Tree.units ⟨⟨.document, name, value, ⟨k, v⟩ :: attrs⟩, kids⟩ =
      .node .child .document name value :: .attr .element k v :: us := ⟨_, rfl⟩
  have hfits := ht.fits
  rw [hus, List.forall_mem_cons, List.forall_mem_cons] at hfits
  have hdocument : Assembly.start.step true (.node .child .document name value) =
      .ok (.more ⟨true, true, .nil, []⟩) := by
    simp [Assembly.step, Assembly.start, ht.1.named]
  refine ⟨us.flatMap WireUnit.bytes, ?_⟩
  rw [hus, List.flatMap_cons, List.flatMap_cons, decodeDocument_eq]
  refine bind_of_error ?_
  rw [assembled_bytes hfits.1, hdocument, proceed, assembled_bytes hfits.2.1]
  rfl

/-- What is read for a document node without attributes has no value. -/
theorem decodeDocument_of_no_attributes (ht : t.Sendable) (hk : t.node.kind = .document)
    (hattrs : t.node.attributes = []) :
    decodeDocument (t.units.flatMap WireUnit.bytes) = (.ok ⟨.document, t.children⟩, []) := by
  have h := decodeDocument_units ht (fun _ => hattrs) []
  rwa [List.append_nil, if_pos hk] at h

end Wire

namespace LiveNode

variable {n : LiveNode} {b : Bytes}

theorem sameAs_document_iff (hk : n.kind = .document) (hs : n.tree.labels.Sendable) :
    Tree.sameAs ⟨Label.document, n.tree.labels.children⟩ n.tree = true ↔
      n.tree.node.label.value = "" ∧ n.tree.node.label.attributes = [] := by
  rw [Tree.sameAs_iff, Tree.labels_label, ← Label.eq_document_iff hk hs.1.named, eq_comm]
  exact ⟨congrArg Tree.node, fun h => congrArg (Tree.mk · n.tree.labels.children) h⟩

/-- A document node that can be sent is read back without its value, and not at all if it has
attributes: it comes back as it was exactly if it is plain. -/
theorem decodeDocument_document (hk : n.kind = .document) (h : n.encode = .ok b) :
    (n.tree.node.label.attributes = [] →
      Wire.decodeDocument b = (.ok ⟨.document, n.tree.labels.children⟩, [])) ∧
    (n.tree.node.label.attributes ≠ [] →
      ∃ rest, Wire.decodeDocument b = (.error (.malformed .topAttribute), rest)) ∧
    ((∃ d, Wire.decodeDocument b = (.ok d, []) ∧ d.sameAs n.tree = true) ↔ n.IsPlain) := by
  obtain ⟨hs, rfl⟩ := n.tree.labels.encode_eq_ok_iff.1 h
  have hlost := Wire.decodeDocument_of_no_attributes hs hk
  have hrefused := Wire.decodeDocument_of_attributes hs hk
  refine ⟨hlost, hrefused, ?_⟩
  have hsame := sameAs_document_iff hk hs
  by_cases hattrs : n.tree.node.label.attributes = []
  · simp [hlost hattrs, hsame, IsPlain, hk]
  · obtain ⟨rest, hrest⟩ := hrefused hattrs
    simp [hrest, IsPlain, hk, hattrs]

/-- A document node with a value. -/
def valued : LiveNode :=
  ⟨Document.empty.edit (.setValue ⟨0⟩ "v"), ⟨0⟩, _, rfl⟩

/-- A document node with an attribute. -/
def tagged : LiveNode :=
  ⟨Document.empty.edit (.appendAttribute ⟨0⟩ "k" "v"), ⟨0⟩, _, rfl⟩

theorem decodeDocument_document_sample :
    ∃ b c, (valued.kind = .document ∧ valued.encode = .ok b ∧
        Wire.decodeDocument b = (.ok ⟨.document, .nil⟩, []) ∧
        ((∃ d, Wire.decodeDocument b = (.ok d, []) ∧ d.sameAs valued.tree = true) ↔
          valued.IsPlain)) ∧
      tagged.kind = .document ∧ tagged.encode = .ok c ∧
        ∃ rest, Wire.decodeDocument c = (.error (.malformed .topAttribute), rest) := by
  obtain ⟨hlost, -, hsame⟩ := decodeDocument_document (n := valued) rfl rfl
  obtain ⟨-, hrefused, -⟩ := decodeDocument_document (n := tagged) rfl rfl
  exact ⟨_, _, ⟨rfl, rfl, hlost rfl, hsame⟩, rfl, rfl, hrefused (by decide)⟩

/-- Not every document node that is sent comes back as it was. -/
theorem not_document_kept :
    ¬ ∀ (n : LiveNode) (b : Bytes), n.kind = .document → n.encode = .ok b →
      ∃ d, Wire.decodeDocument b = (.ok d, []) ∧ d.sameAs n.tree = true := by
  intro hall
  obtain ⟨hs, hb⟩ := valued.tree.labels.encode_eq_ok_iff.1 rfl
  obtain ⟨d, hd, hsame⟩ := hall valued _ rfl rfl
  rw [hb, Wire.decodeDocument_of_no_attributes hs rfl rfl, Prod.mk.injEq, Except.ok.injEq] at hd
  rw [← hd.1, sameAs_document_iff rfl hs] at hsame
  exact absurd hsame.1 (by decide)

end LiveNode

end Treegram
