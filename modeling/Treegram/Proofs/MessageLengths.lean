import Treegram.Proofs.ReachedDocuments
import Treegram.Wire.Sink

/-!
# The length of a message

Along the links of a tree the same pieces are written as are found from the tree, up to the first
that cannot be, whatever they are put into (`Standing.writes`). So what is counted is the length of
what is written, and if one ends early, the other does at the same piece and for the same reason.
-/

namespace Treegram

/-! ## Pieces and sinks -/

namespace Piece

theorem measure_eq (ps : List Piece) : measure ps =
    match write ps with
    | (b, none) => .ok b.length
    | (_, some cause) => .error cause := by
  induction ps with
  | nil => rfl
  | cons p ps ih =>
    rcases p with x | s | cause
    · rw [measure, write, ih]
      rcases write ps with ⟨b, _ | cause⟩ <;> simp [Except.map, Nat.add_comm]
    · rw [measure, write, ih]
      split
      · rcases write ps with ⟨b, _ | cause⟩ <;> simp [Except.map, Nat.add_assoc]
      · rfl
    · rfl

variable {τ : Type} [Sink τ]

/-- What comes of pieces that are put into a sink one after the other. -/
def pour (ps : List Piece) (s : τ) : Except Fault Unit × τ :=
  match write ps with
  | (b, none) => (.ok (), Sink.put s b)
  | (b, some cause) => (.error (.refused cause), Sink.put s b)

theorem pour_append (ps qs : List Piece) (s : τ) : pour (ps ++ qs) s =
    match pour ps s with
    | (.ok (), s') => pour qs s'
    | (.error e, s') => (.error e, s') := by
  unfold pour
  rw [write_append_eq]
  rcases write ps with ⟨b, _ | cause⟩
  · rcases write qs with ⟨b', _ | cause⟩ <;> simp [Sink.put_append]
  · rfl

end Piece

/-! ## What is written -/

namespace Writing

variable {τ α : Type} [Sink τ] {x y : Writing τ Unit} {ps qs : List Piece}

/-- Whether the pieces are put into a sink one after the other. -/
def Writes (x : Writing τ Unit) (ps : List Piece) : Prop :=
  ∀ s, x s = some (Piece.pour ps s)

omit [Sink τ] in
theorem bind_run (x : Writing τ α) (f : α → Writing τ Unit) (s : τ) : (x >>= f) s =
    (x s).bind fun p =>
      match p with
      | (.ok a, s') => f a s'
      | (.error e, s') => some (.error e, s') := by
  show (x s).bind _ = _
  congr 1
  funext p
  rcases p with ⟨_ | a, s'⟩ <;> rfl

theorem writes_pure : Writes (pure () : Writing τ Unit) [] := by
  intro s
  show some (Except.ok (), s) = some (Except.ok (), Sink.put s [])
  rw [Sink.put_nil]

theorem Writes.append (hx : Writes x ps) (hy : Writes y qs) :
    Writes (x >>= fun _ => y) (ps ++ qs) := by
  intro s
  rw [bind_run, hx, Option.bind_some, Piece.pour_append]
  rcases Piece.pour ps s with ⟨_ | a, s'⟩
  · rfl
  · exact hy s'

theorem writes_byte (b : UInt8) : Writes (put [b] : Writing τ Unit) [.byte b] := by
  intro s
  rfl

theorem writes_refuse (cause : Refusal) (f : Unit → Writing τ Unit) (ps : List Piece) :
    Writes (refuse cause >>= f : Writing τ Unit) (.refuse cause :: ps) := by
  intro s
  show some (Except.error (Fault.refused cause), s) =
    some (Except.error (Fault.refused cause), Sink.put s [])
  rw [Sink.put_nil]

theorem Writes.lookUp {n : LinkedNode} {f : LinkedNode → Writing τ Unit} (h : Writes (f n) ps) :
    Writes (lookUp (some n) >>= f) ps := by
  intro s
  rw [bind_run]
  exact h s

theorem writes_text (s : String) : Writes (text s : Writing τ Unit) [.text s] := by
  intro out
  unfold text
  split
  · rename_i h
    rw [Piece.pour, Piece.write, if_pos h]
    simp only [Piece.write, List.append_nil, Sink.put_append]
    rfl
  · rename_i h
    rw [Piece.pour, Piece.write, if_neg h]
    simp only [Sink.put_nil]
    rfl

theorem writes_unit (c : Control) (kind : NodeKind) (name value : String) :
    Writes (unit c kind name value : Writing τ Unit)
      [.byte (c.byte kind.tag), .text name, .text value] :=
  (writes_byte _).append ((writes_text name).append (writes_text value))

theorem writes_attributes : ∀ as : List Attribute, Writes (attributes as : Writing τ Unit)
    (as.flatMap fun a => (WireUnit.attr .element a.name a.value).pieces false)
  | [] => writes_pure
  | a :: as => by
    rw [List.flatMap_cons, WireUnit.pieces, attributes]
    split
    · exact writes_refuse _ _ _
    · exact (writes_unit _ _ _ _).append (writes_attributes as)

/-- A node is written with what is below it, and with their end if there are any or if it stands at
the top. -/
theorem writes_node {c : LinkedDocument} {n : LinkedNode} {id : NodeId} {level : Nat}
    {units : List WireUnit} (place : Place) (hn : c.get? id = some n)
    (hkids : Writes (c.writeFrom (τ := τ) .child (level + 1) n.links.firstChild)
      (units.flatMap (WireUnit.pieces false))) :
    Writes (c.writeNode (τ := τ) place level id)
      ((WireUnit.node place n.label.kind n.label.name n.label.value).pieces (level == 0) ++
        (n.label.attributeUnits ++ (units ++
          if n.links.firstChild.isSome ∨ level = 0 then [WireUnit.close n.label.kind]
          else [])).flatMap (WireUnit.pieces false)) := by
  have hclose : Writes (if n.links.firstChild.isSome ∨ level = 0 then
        put [Control.endOfChildren.byte n.label.kind.tag] else pure () : Writing τ Unit)
      ((if n.links.firstChild.isSome ∨ level = 0 then [WireUnit.close n.label.kind]
          else []).flatMap (WireUnit.pieces false)) := by
    split
    · exact writes_byte _
    · exact writes_pure
  have hattributes := writes_attributes (τ := τ) n.label.attributes
  rw [← List.flatMap_map] at hattributes
  rw [LinkedDocument.writeNode, hn, List.flatMap_append, List.flatMap_append, WireUnit.pieces]
  refine Writes.lookUp ?_
  simp only [beq_eq_false_iff_ne]
  -- the two refusals come before anything of the node is written
  by_cases hinner : n.label.kind = .document ∧ level ≠ 0
  · rw [if_pos hinner, if_pos hinner]
    exact writes_refuse _ _ _
  · rw [if_neg hinner, if_neg hinner]
    rcases nameFault? n.label.kind n.label.name with _ | fault
    · exact (writes_unit _ _ _ _).append (hattributes.append (hkids.append hclose))
    · exact writes_refuse _ _ _

end Writing

open Writing

theorem Forest.childUnits_map (kind : NodeKind) (kids : Forest Node) :
    (kids.map label).childUnits kind = (kids.map label).units .child ++
      if kids.firstId?.isSome then [.close kind] else [] := by
  cases kids <;> rfl

variable {τ : Type} [Sink τ] {c : LinkedDocument}

theorem Joined.writes : ∀ {f : Forest Node} {parent previous : Option NodeId} {place : Place}
    {level : Nat}, Joined c.get? parent previous none f →
      Writes (c.writeFrom (τ := τ) place (level + 1) f.firstId?)
        (((f.map label).units place).flatMap (WireUnit.pieces false))
  | .nil, _, _, _, _, _ => by
    rw [Forest.firstId?, LinkedDocument.writeFrom]
    exact writes_pure
  | .cons n kids rest, _, _, place, level, ⟨hn, hkids, hrest⟩ => by
    have hbelow : Writes (c.writeFrom (τ := τ) .child (level + 1 + 1) kids.firstId?) _ :=
      hkids.writes
    have hbehind : Writes (c.writeFrom (τ := τ) .sibling (level + 1) rest.firstId?) _ :=
      hrest.writes
    have hunits := (writes_node place hn hbelow).append hbehind
    rw [Forest.firstId?, LinkedDocument.writeFrom, hn, Forest.map, Forest.units_cons,
      Forest.childUnits_map, List.flatMap_cons]
    simp only [Nat.add_one_ne_zero, or_false, List.append_assoc,
      List.flatMap_append] at hunits ⊢
    rw [Option.or_none]
    exact Writes.lookUp hunits

/-- Along the links of a tree its units are written, as those of a message. -/
theorem Standing.writes {t : Tree Node} (h : Standing c.get? t) :
    Writes (c.writeNode (τ := τ) .child 0 t.node.id) (pieces t.labels.units) := by
  obtain ⟨⟨_, _, _, hn⟩, hkids⟩ := h
  have hbelow : Writes (c.writeFrom (τ := τ) .child (0 + 1) t.children.firstId?) _ :=
    hkids.writes
  have hunits := writes_node .child hn hbelow
  rw [if_pos (.inr rfl)] at hunits
  rw [Tree.units_eq, pieces, List.append_assoc]
  exact hunits

/-! ## Lengths -/

/-- The bytes of the units that open a node with this label and add its attributes. -/
def Label.messageSize (l : Label) : Nat :=
  9 + l.name.utf8ByteSize + l.value.utf8ByteSize +
    (l.attributes.map fun a => 9 + a.name.utf8ByteSize + a.value.utf8ByteSize).sum

/-- All trees in a forest, each before those below it. -/
def Forest.subtrees {α : Type} : Forest α → List (Tree α)
  | .nil => []
  | .cons a kids rest => ⟨a, kids⟩ :: (kids.subtrees ++ rest.subtrees)

def Tree.subtrees {α : Type} (t : Tree α) : List (Tree α) :=
  t :: t.children.subtrees

def Tree.isParent {α : Type} : Tree α → Bool
  | ⟨_, .nil⟩ => false
  | ⟨_, .cons ..⟩ => true

/-- The bytes of trees, if each of them that has children is told their end. -/
def messageSize (ts : List (Tree Label)) : Nat :=
  (ts.map fun t => t.node.messageSize).sum + ts.countP Tree.isParent

theorem messageSize_append (ts us : List (Tree Label)) :
    messageSize (ts ++ us) = messageSize ts + messageSize us := by
  simp only [messageSize, List.map_append, List.sum_append, List.countP_append]
  omega

theorem messageSize_cons (t : Tree Label) (ts : List (Tree Label)) : messageSize (t :: ts) =
    t.node.messageSize + (if t.isParent then 1 else 0) + messageSize ts := by
  simp only [messageSize, List.map_cons, List.sum_cons, List.countP_cons]
  omega

theorem length_textBytes (s : String) : (textBytes s).length = 4 + s.utf8ByteSize := by
  simp [textBytes]

theorem Label.length_units (l : Label) (place : Place) :
    ((WireUnit.node place l.kind l.name l.value :: l.attributeUnits).flatMap
      WireUnit.bytes).length = l.messageSize := by
  have hattributes : ((l.attributeUnits.flatMap WireUnit.bytes).length) =
      (l.attributes.map fun a => 9 + a.name.utf8ByteSize + a.value.utf8ByteSize).sum := by
    rw [attributeUnits, List.flatMap_map, List.length_flatMap]
    congr 2
    funext a
    simp only [WireUnit.bytes, List.length_cons, List.length_append, length_textBytes]
    omega
  rw [List.flatMap_cons, List.length_append, hattributes, messageSize]
  simp only [WireUnit.bytes, List.length_cons, List.length_append, length_textBytes]
  omega

theorem Forest.length_units : ∀ (f : Forest Label) (place : Place),
    ((f.units place).flatMap WireUnit.bytes).length = messageSize f.subtrees
  | .nil, _ => rfl
  | .cons l kids rest, place => by
    have hl := l.length_units place
    have hrest := rest.length_units .sibling
    have hkids : ((kids.childUnits l.kind).flatMap WireUnit.bytes).length =
        messageSize kids.subtrees + if Tree.isParent ⟨l, kids⟩ then 1 else 0 := by
      rcases kids with _ | ⟨k, below, behind⟩
      · rfl
      · rw [childUnits, List.flatMap_append, List.length_append, length_units]
        rfl
    rw [units_cons, ← List.cons_append, ← List.append_assoc]
    simp only [List.flatMap_append, List.length_append, hl, hkids, hrest, subtrees,
      messageSize_cons, messageSize_append]
    omega

/-- The top node is told the end of its children even if it has none. -/
theorem Tree.length_units (t : Tree Label) : (t.units.flatMap WireUnit.bytes).length =
    messageSize t.subtrees + if t.isParent then 0 else 1 := by
  have hl := t.node.length_units .child
  have hclose : ([WireUnit.close t.node.kind].flatMap WireUnit.bytes).length = 1 := rfl
  rw [units_eq, ← List.cons_append, ← List.cons_append]
  simp only [List.flatMap_append, List.length_append, hl, hclose, Forest.length_units, subtrees,
    messageSize_cons]
  split <;> omega

/-! ## Nodes that can be sent -/

def Label.texts (l : Label) : List String :=
  l.name :: l.value :: l.attributes.flatMap fun a => [a.name, a.value]

/-- Whether nothing in a tree keeps it from being sent. -/
structure Tree.Encodable (t : Tree Label) : Prop where
  below : ∀ l ∈ t.children.nodes, l.kind ≠ .document
  named : ∀ l ∈ t.nodes, l.name ≠ "" ↔ l.kind = .element ∨ l.kind = .pi
  attributes : ∀ l ∈ t.nodes, ∀ a ∈ l.attributes, a.name ≠ ""
  short : ∀ l ∈ t.nodes, ∀ s ∈ l.texts, s.utf8ByteSize ≤ 16 * 1024 * 1024

theorem Label.sendable_iff (l : Label) : l.Sendable ↔
    (l.name ≠ "" ↔ l.kind = .element ∨ l.kind = .pi) ∧ (∀ a ∈ l.attributes, a.name ≠ "") ∧
      ∀ s ∈ l.texts, s.utf8ByteSize ≤ 16 * 1024 * 1024 := by
  rw [← nameFault?_eq_none_iff]
  simp only [texts, List.forall_mem_cons, List.forall_mem_flatMap, List.not_mem_nil, false_imp_iff,
    implies_true, and_true]
  constructor
  · rintro ⟨hn, hs, ha⟩
    exact ⟨hn, fun a h => (ha a h).1, hs.1, hs.2, fun a h => (ha a h).2⟩
  · rintro ⟨hn, ha, hname, hvalue, hs⟩
    exact ⟨hn, ⟨hname, hvalue⟩, fun a h => ⟨ha a h, hs a h⟩⟩

theorem Tree.sendable_iff_encodable (t : Tree Label) : t.Sendable ↔ t.Encodable := by
  have hnodes : t.Sendable ↔ (∀ l ∈ t.children.nodes, l.kind ≠ .document) ∧
      ∀ l ∈ t.nodes, l.Sendable := by
    rw [Sendable, nodes, List.forall_mem_cons]
    simp only [Label.SendableBelow, forall_and]
    tauto
  rw [hnodes]
  simp only [Label.sendable_iff, forall_and]
  exact ⟨fun h => ⟨h.1, h.2.1, h.2.2.1, h.2.2.2⟩, fun h => ⟨h.1, h.2, h.3, h.4⟩⟩

/-- Whether `r` is what comes of a tree that is to be sent. -/
structure Tree.EncodesTo (t : Tree Label) (r : Except Refusal Bytes) : Prop where
  encode : t.encode = r
  succeeds : (∃ b, r = .ok b) ↔ t.Encodable
  measured : t.encodedLength = r.map List.length
  length : ∀ b, r = .ok b → b.length =
    (t.subtrees.map fun u =>
      9 + u.node.name.utf8ByteSize + u.node.value.utf8ByteSize +
        (u.node.attributes.map fun a => 9 + a.name.utf8ByteSize + a.value.utf8ByteSize).sum).sum +
      t.subtrees.countP Tree.isParent + if t.isParent then 0 else 1
  /-- What is there already stays in front, whether all of the message follows it or not. -/
  appended : ∀ out, ∃ more, (∀ b, r = .ok b → more = b) ∧
    t.encodeOnto out = match r with
      | .ok _ => (out ++ more, none)
      | .error cause => (out ++ more, some cause)

theorem Tree.encodesTo (t : Tree Label) : t.EncodesTo t.encode where
  encode := rfl
  succeeds := by
    simp only [encode_eq_ok_iff, ← sendable_iff_encodable, exists_eq_right]
  measured := by
    rw [encodedLength, Piece.measure_eq, encode]
    rcases Piece.write (pieces t.units) with ⟨b, _ | cause⟩ <;> rfl
  length := by
    intro b hb
    obtain ⟨-, rfl⟩ := t.encode_eq_ok_iff.1 hb
    exact t.length_units
  appended := by
    intro out
    rw [encodeOnto, encode]
    rcases Piece.write (pieces t.units) with ⟨b, _ | cause⟩
    · exact ⟨b, fun b' h => Except.ok.inj h, rfl⟩
    · exact ⟨b, fun b' h => by simp at h, rfl⟩

namespace ReachedNode

/-- Whether what comes of writing a node along the links is what comes of its tree. Each failure is
the refusal of an argument. -/
structure WritesAs (n : ReachedNode) (t : Tree Label) : Prop where
  encode : n.links.encode n.id = some (t.encode.mapError .refused)
  measured : n.links.encodedLength n.id = some (t.encodedLength.mapError .refused)
  appended : ∀ out, n.links.encodeOnto n.id out =
    some ((t.encode.map fun _ => ()).mapError .refused, (t.encodeOnto out).1)

theorem writeNode_eq {τ : Type} [Sink τ] (n : ReachedNode) (s : τ) :
    n.links.writeNode .child 0 n.id s = some (Piece.pour (pieces n.tree.labels.units) s) := by
  rw [← n.node_id]
  exact n.standing.writes s

theorem measured_links (n : ReachedNode) : n.links.encodedLength n.id =
    some (n.tree.labels.encodedLength.mapError .refused) := by
  rw [LinkedDocument.encodedLength, writeNode_eq, Piece.pour, Tree.encodedLength, Piece.measure_eq]
  rcases Piece.write (pieces n.tree.labels.units) with ⟨b, _ | cause⟩
  · show some (Except.ok (0 + b.length)) = some (Except.ok b.length)
    rw [Nat.zero_add]
  · rfl

theorem appended_links (n : ReachedNode) (out : Bytes) : n.links.encodeOnto n.id out =
    some ((n.tree.labels.encode.map fun _ => ()).mapError .refused,
      (n.tree.labels.encodeOnto out).1) := by
  rw [LinkedDocument.encodeOnto, writeNode_eq, Piece.pour, Tree.encode, Tree.encodeOnto]
  rcases Piece.write (pieces n.tree.labels.units) with ⟨b, _ | cause⟩ <;> rfl

/-- The message is written in a second pass if it could be measured in the first. -/
theorem writesAs (n : ReachedNode) : n.WritesAs n.tree.labels where
  encode := by
    rw [LinkedDocument.encode, measured_links, appended_links, Tree.encodedLength,
      Piece.measure_eq, Tree.encode, Tree.encodeOnto]
    rcases Piece.write (pieces n.tree.labels.units) with ⟨b, _ | cause⟩ <;> rfl
  measured := n.measured_links
  appended := n.appended_links

/-- Every tree is written as it is measured, and it has a message exactly if all of it can be sent.
A live node is written along the links as its tree is. -/
theorem encode_exact : (∀ t : Tree Label, ∃ r, t.EncodesTo r) ∧
    ∀ n : ReachedNode, n.WritesAs n.tree.labels :=
  ⟨fun t => ⟨t.encode, t.encodesTo⟩, writesAs⟩

end ReachedNode

end Treegram
