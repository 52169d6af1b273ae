import Treegram.Proofs.WrittenUnits

/-!
# Trees that can be sent

A tree has a message exactly if each of its nodes can be sent, and then the message is the bytes of
its units (`encode_eq_ok_iff`). A node can be sent if it is named as its kind asks, its attributes
are named and no text of it is too long; below the top it must not be a document.
-/

namespace Treegram

/-- Whether a node with this label can be sent, at the top of a message at least. -/
structure Label.Sendable (l : Label) : Prop where
  named : nameFault? l.kind l.name = none
  short : Short l.name ∧ Short l.value
  attributes : ∀ a ∈ l.attributes, a.name ≠ "" ∧ Short a.name ∧ Short a.value

/-- Whether a node with this label can be sent below the top of a message. -/
def Label.SendableBelow (l : Label) : Prop :=
  l.kind ≠ .document ∧ l.Sendable

namespace Label

theorem sendable_attributeUnits (l : Label) :
    (∀ u ∈ l.attributeUnits, u.Sendable false) ↔
      ∀ a ∈ l.attributes, a.name ≠ "" ∧ Short a.name ∧ Short a.value := by
  simp [attributeUnits, WireUnit.Sendable, WireUnit.InOrder, WireUnit.Fits]

/-- A node can be sent exactly if the unit that opens it and those of its attributes can. -/
theorem sendableBelow_iff (l : Label) (place : Place) :
    l.SendableBelow ↔
      (WireUnit.node place l.kind l.name l.value).Sendable false ∧
        ∀ u ∈ l.attributeUnits, u.Sendable false := by
  rw [sendable_attributeUnits]
  simp only [WireUnit.Sendable, WireUnit.InOrder, WireUnit.Fits, Bool.false_eq_true]
  constructor
  · rintro ⟨hk, h⟩
    exact ⟨⟨⟨hk, h.named⟩, h.short⟩, h.attributes⟩
  · rintro ⟨⟨⟨hk, hn⟩, hs⟩, ha⟩
    exact ⟨hk, hn, hs, ha⟩

end Label

namespace Forest

/-- The units of a forest of siblings, the first of which is opened at `place`. -/
def units (place : Place) (f : Forest Label) : List WireUnit :=
  f.unitsOnto place []

theorem unitsOnto_eq (f : Forest Label) (place : Place) (after : List WireUnit) :
    f.unitsOnto place after = f.units place ++ after := by
  rw [units]
  induction f generalizing place after with
  | nil => rfl
  | cons l kids rest ihk ihr =>
    simp only [unitsOnto]
    rcases kids with _ | ⟨k, kk, kr⟩
    · simp only
      rw [ihr]
      simp
    · simp only
      rw [ihk, ihr]
      simp only [ihk .child (_ :: _)]
      simp

/-- The units of the children of a node of the given kind and, if there are any, of their end. -/
def childUnits (kind : NodeKind) : Forest Label → List WireUnit
  | .nil => []
  | .cons l kids rest => (cons l kids rest).units .child ++ [.close kind]

@[simp] theorem units_nil (place : Place) : (nil : Forest Label).units place = [] := rfl

theorem units_cons (place : Place) (l : Label) (kids rest : Forest Label) :
    (cons l kids rest).units place =
      .node place l.kind l.name l.value ::
        (l.attributeUnits ++ (kids.childUnits l.kind ++ rest.units .sibling)) := by
  rcases kids with _ | ⟨k, kk, kr⟩
  · simp [units, unitsOnto, childUnits]
  · rw [units, unitsOnto, unitsOnto_eq, childUnits]
    simp [units]

/-- The units of a forest can be sent exactly if its nodes can. -/
theorem sendable_units (f : Forest Label) (place : Place) :
    (∀ u ∈ f.units place, u.Sendable false) ↔ ∀ l ∈ f.nodes, l.SendableBelow := by
  induction f generalizing place with
  | nil => simp [nodes]
  | cons l kids rest ihk ihr =>
    have hl := l.sendableBelow_iff place
    have hclose : (WireUnit.close l.kind).Sendable false := ⟨trivial, trivial⟩
    have hkids : (∀ u ∈ kids.childUnits l.kind, u.Sendable false) ↔
        ∀ k ∈ kids.nodes, k.SendableBelow := by
      rcases kids with _ | ⟨k, kk, kr⟩
      · simp [childUnits, nodes]
      · rw [childUnits, List.forall_mem_append, ihk]
        simp [hclose]
    simp only [units_cons, nodes, List.forall_mem_cons, List.forall_mem_append]
    rw [ihr, hkids, hl, and_assoc]

end Forest

namespace Tree

theorem units_eq (t : Tree Label) :
    t.units = .node .child t.node.kind t.node.name t.node.value ::
      (t.node.attributeUnits ++ t.children.units .child ++ [.close t.node.kind]) := by
  rw [units, Forest.unitsOnto_eq, List.append_assoc]

/-- Whether every node of the tree can be sent where it stands. -/
def Sendable (t : Tree Label) : Prop :=
  t.node.Sendable ∧ ∀ l ∈ t.children.nodes, l.SendableBelow

/-- The units of a tree can be sent exactly if the tree can. -/
theorem sendable_units (t : Tree Label) :
    ((WireUnit.node .child t.node.kind t.node.name t.node.value).Sendable true ∧
        ∀ u ∈ t.node.attributeUnits ++ t.children.units .child ++ [.close t.node.kind],
          u.Sendable false) ↔ t.Sendable := by
  have hclose : (WireUnit.close t.node.kind).Sendable false := ⟨trivial, trivial⟩
  have htop : (WireUnit.node .child t.node.kind t.node.name t.node.value).Sendable true ↔
      nameFault? t.node.kind t.node.name = none ∧ Short t.node.name ∧ Short t.node.value := by
    simp [WireUnit.Sendable, WireUnit.InOrder, WireUnit.Fits]
  simp only [List.forall_mem_append, List.forall_mem_singleton, hclose, htop, and_true,
    Forest.sendable_units, Label.sendable_attributeUnits, Sendable]
  constructor
  · rintro ⟨⟨hn, hs⟩, ha, hc⟩
    exact ⟨⟨hn, hs, ha⟩, hc⟩
  · rintro ⟨h, hc⟩
    exact ⟨⟨h.named, h.short⟩, h.attributes, hc⟩

theorem Sendable.fits {t : Tree Label} (h : t.Sendable) : ∀ u ∈ t.units, u.Fits := by
  obtain ⟨htop, hrest⟩ := t.sendable_units.2 h
  rw [units_eq, List.forall_mem_cons]
  exact ⟨htop.2, fun u hu => (hrest u hu).2⟩

/-- A tree has a message exactly if it can be sent, and it is the bytes of its units. -/
theorem encode_eq_ok_iff (t : Tree Label) {b : Bytes} :
    t.encode = .ok b ↔ t.Sendable ∧ b = t.units.flatMap WireUnit.bytes := by
  have hwrite : t.encode = .ok b ↔ Piece.write (pieces t.units) = (b, none) := by
    unfold encode
    split <;> rename_i h <;> simp [h]
  rw [hwrite, units_eq, write_pieces_iff, sendable_units]

end Tree

end Treegram
