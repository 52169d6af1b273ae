import Treegram.Proofs.ComposedPaths

/-!
# The first of a name

Several children of a node may be elements of one name, and several of its attributes may have one
name. Those that are looked up are the first of them.
-/

namespace Treegram

/-- Whether `x` is the first on the list of which `p` holds. -/
def IsFirst {β : Type} (p : β → Prop) (l : List β) (x : β) : Prop :=
  p x ∧ ∃ front back, l = front ++ x :: back ∧ ∀ y ∈ front, ¬p y

theorem isFirst_iff_find? {β : Type} {p : β → Prop} {q : β → Bool} (hq : ∀ x, q x = true ↔ p x)
    {l : List β} {x : β} : IsFirst p l x ↔ l.find? q = some x := by
  simp only [IsFirst, List.find?_eq_some_iff_append, hq, Bool.not_eq_true', ← Bool.not_eq_true]

namespace Tree

variable {t u : Tree Label} {name value : String}

/-- Whether the tree is an element with the name. -/
def IsElement (t : Tree Label) (name : String) : Prop :=
  t.node.kind = .element ∧ t.node.name = name

/-- Whether `u` is the first child of `t` that is an element with the name. -/
def IsFirstChild (t : Tree Label) (name : String) (u : Tree Label) : Prop :=
  IsFirst (fun v => v.IsElement name) t.children.trees u

/-- Whether `value` is that of the first attribute of `t` with the name. -/
def IsFirstValue (t : Tree Label) (name value : String) : Prop :=
  ∃ a, IsFirst (fun a => a.name = name) t.node.attributes a ∧ a.value = value

theorem isElement_iff : (label t.node).isElement name = true ↔ t.IsElement name := by
  show (t.node.kind == .element && t.node.name == name) = true ↔ _
  rw [Bool.and_eq_true, beq_iff_eq, beq_iff_eq, IsElement]

theorem childNamed?_eq_some_iff : t.childNamed? name = some u ↔ t.IsFirstChild name u := by
  rw [childNamed?, Forest.element?_eq_find?, IsFirstChild,
    isFirst_iff_find? fun _ => isElement_iff]

theorem childNamed?_eq_none_iff :
    t.childNamed? name = none ↔ ∀ v ∈ t.children.trees, ¬v.IsElement name := by
  rw [childNamed?, Forest.element?_eq_find?, List.find?_eq_none]
  simp only [isElement_iff]

theorem attribute?_eq_some_iff : t.attribute? name = some value ↔ t.IsFirstValue name value := by
  show (t.node.attributes.find? fun a => a.name == name).map Attribute.value = some value ↔ _
  rw [Option.map_eq_some_iff, IsFirstValue]
  simp only [isFirst_iff_find? fun a : Attribute => beq_iff_eq (a := a.name) (b := name)]

end Tree

end Treegram
