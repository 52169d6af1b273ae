import Mathlib.Tactic.Set
import Treegram.Proofs.Sendable
import Treegram.Wire.Assembly

/-!
# Putting a tree together from its units

Reading the units of a forest leaves its last tree open: closing that one gives the state before
with the whole forest as further children of the node that was open (`leads_forest`). So a node's
end, or the next sibling, finds the node with all its children, at any depth.
-/

namespace Treegram

namespace Forest

variable {α : Type}

theorem reverseOnto_append : ∀ f g h : Forest α,
    (f ++ g).reverseOnto h = g.reverseOnto (f.reverseOnto h)
  | .nil, _, _ => rfl
  | .cons _ _ rest, g, h => reverseOnto_append rest g (.cons _ _ h)

theorem reverseOnto_reverseOnto : ∀ f g h : Forest α,
    (f.reverseOnto g).reverseOnto h = g.reverseOnto (f ++ h)
  | .nil, _, _ => rfl
  | .cons a kids rest, g, h => by
    rw [reverseOnto, reverseOnto_reverseOnto rest]
    rfl

@[simp] theorem append_nil : ∀ f : Forest α, f ++ .nil = f
  | .nil => rfl
  | .cons a kids rest => congrArg (cons a kids) (append_nil rest)

@[simp] theorem reverse_reverse (f : Forest α) : f.reverse.reverse = f := by
  rw [reverse, reverse, reverseOnto_reverseOnto, append_nil]
  rfl

end Forest

namespace Assembly

/-- With the trees of `f` as further children of the innermost open node, or at the top. -/
def adopt (a : Assembly) (f : Forest Label) : Assembly :=
  match a.path with
  | [] => { a with roots := f.reverseOnto a.roots }
  | n :: path => { a with path := { n with children := f.reverseOnto n.children } :: path }

/-- Reading the units leads from one state to the other, and none of them ends the message. -/
inductive Leads (below : Bool) : Assembly → List WireUnit → Assembly → Prop
  | refl (a : Assembly) : Leads below a [] a
  | cons {a b c : Assembly} {u : WireUnit} {us : List WireUnit} :
    a.step below u = .ok (.more b) → Leads below b us c → Leads below a (u :: us) c

variable {below : Bool} {a b c : Assembly}

theorem Leads.single {u : WireUnit} (h : a.step below u = .ok (.more b)) : Leads below a [u] b :=
  .cons h (.refl b)

theorem Leads.trans {us vs : List WireUnit} (h : Leads below a us b) (h' : Leads below b vs c) :
    Leads below a (us ++ vs) c := by
  induction h with
  | refl => exact h'
  | cons hs _ ih => exact .cons hs (ih h')

@[simp] theorem adopt_nil (a : Assembly) : a.adopt .nil = a := by
  rcases a with ⟨started, isDocument, roots, _ | ⟨n, path⟩⟩ <;> rfl

theorem adopt_adopt (a : Assembly) (f g : Forest Label) :
    (a.adopt f).adopt g = a.adopt (f ++ g) := by
  rcases a with ⟨started, isDocument, roots, _ | ⟨n, path⟩⟩ <;>
    simp [adopt, Forest.reverseOnto_append]

@[simp] theorem adopt_started (a : Assembly) (f : Forest Label) :
    (a.adopt f).started = a.started := by
  rcases a with ⟨started, isDocument, roots, _ | ⟨n, path⟩⟩ <;> rfl

@[simp] theorem adopt_isDocument (a : Assembly) (f : Forest Label) :
    (a.adopt f).isDocument = a.isDocument := by
  rcases a with ⟨started, isDocument, roots, _ | ⟨n, path⟩⟩ <;> rfl

@[simp] theorem adopt_isComplete (a : Assembly) (f : Forest Label) :
    (a.adopt f).isComplete = a.isComplete := by
  rcases a with ⟨started, isDocument, roots, _ | ⟨n, _ | ⟨m, path⟩⟩⟩ <;> rfl

@[simp] theorem adopt_path_eq_nil (a : Assembly) (f : Forest Label) :
    (a.adopt f).path = [] ↔ a.path = [] := by
  rcases a with ⟨started, isDocument, roots, _ | ⟨n, path⟩⟩ <;> simp [adopt]

/-- The state in which a node with the label `l` and no children yet is open innermost. -/
def opened (a : Assembly) (l : Label) : Assembly :=
  { a with path := ⟨{ l with attributes := l.attributes.reverse }, .nil⟩ :: a.path }

/-- A node that is closed is a further child of the one above it. -/
theorem close_adopt_opened (a : Assembly) (l : Label) (kids : Forest Label) :
    ((a.opened l).adopt kids).close = a.adopt (.cons l kids .nil) := by
  have hk : (kids.reverseOnto .nil).reverse = kids := kids.reverse_reverse
  rcases a with ⟨started, isDocument, roots, _ | ⟨n, path⟩⟩ <;>
    simp [opened, adopt, close, OpenNode.finished, OpenNode.adopt, Forest.reverseOnto, hk]

/-! ## Units of nodes and forests -/

theorem leads_attributes (below : Bool) (a : Assembly) (kids : Forest Label)
    (path : List OpenNode) : ∀ (attrs : List Attribute) (l : Label), (∀ x ∈ attrs, x.name ≠ "") →
      Leads below { a with path := ⟨l, kids⟩ :: path }
        (attrs.map fun x => .attr .element x.name x.value)
        { a with path := ⟨{ l with attributes := attrs.reverse ++ l.attributes }, kids⟩ :: path }
  | [], l, _ => .refl _
  | x :: xs, l, hne => by
    simp only [List.forall_mem_cons] at hne
    have ih := leads_attributes below a kids path xs
      { l with attributes := x :: l.attributes } hne.2
    refine .cons ?_ (by simpa using ih)
    simp only [step, if_neg hne.1]

/-- After the unit that opens a node and those of its attributes, the node is open with its whole
label. -/
theorem leads_opened (below : Bool) (a : Assembly) {l : Label} (h : l.Sendable) :
    Leads below (a.openNode l.kind l.name l.value) l.attributeUnits
      ({ a with started := true }.opened l) := by
  have := leads_attributes below { a with started := true } .nil a.path l.attributes
    (.plain l.kind l.name l.value) fun x hx => (h.attributes x hx).1
  simpa [Label.plain, openNode, opened, Label.attributeUnits] using this

/-- Where a node that is opened at `place` becomes a child of the innermost open node. -/
def above (a : Assembly) : Place → Assembly
  | .child => a
  | .sibling => a.close

@[simp] theorem close_started (a : Assembly) : a.close.started = a.started := by
  rcases a with ⟨started, isDocument, roots, _ | ⟨n, _ | ⟨m, path⟩⟩⟩ <;> rfl

@[simp] theorem above_started (a : Assembly) (place : Place) :
    (a.above place).started = a.started := by
  cases place <;> simp [above]

theorem step_node {place : Place} {l : Label} (h : l.SendableBelow)
    (hp : place = .sibling → a.path ≠ []) :
    a.step below (.node place l.kind l.name l.value) =
      .ok (.more ((a.above place).openNode l.kind l.name l.value)) := by
  simp only [step, if_neg h.1, h.2.named]
  rcases place with _ | _
  · rfl
  · rcases hq : a.path with _ | ⟨n, path⟩
    · exact absurd hq (hp rfl)
    · rfl

theorem step_close {kind : NodeKind} (hp : a.path ≠ []) :
    a.step below (.close kind) =
      .ok (if a.close.isComplete then .complete a.close else .more a.close) := by
  rcases a with ⟨started, isDocument, roots, _ | ⟨n, path⟩⟩
  · exact absurd rfl hp
  · rfl

theorem isComplete_of_path_eq_nil (h : a.path = []) : a.isComplete = true := by
  simp [isComplete, h]

/-- Whether a node opened here can end without the message. -/
def Nests (a : Assembly) : Prop :=
  a.path = [] → a.isDocument = true

theorem Nests.opened_isComplete (h : a.Nests) (l : Label) : (a.opened l).isComplete = false := by
  rcases a with ⟨started, isDocument, roots, _ | ⟨n, path⟩⟩
  · simpa [isComplete, opened] using h rfl
  · rfl

theorem nests_opened (a : Assembly) (l : Label) : (a.opened l).Nests :=
  fun h => by simp [opened] at h

@[simp] theorem nests_adopt (a : Assembly) (f : Forest Label) : (a.adopt f).Nests ↔ a.Nests := by
  simp [Nests]

/-- After the units of a forest its last tree is still open, and closing it gives the state before
with the trees of the forest adopted. -/
theorem leads_forest (below : Bool) (f : Forest Label) : ∀ (place : Place) (a : Assembly),
    (∀ l ∈ f.nodes, l.SendableBelow) → a.started = true → (a.above place).Nests →
    (place = .sibling → a.path ≠ []) → (place = .child → f ≠ .nil) →
    ∃ b, Leads below a (f.units place) b ∧ b.path ≠ [] ∧ b.close = (a.above place).adopt f := by
  induction f with
  | nil =>
    intro place a _ _ _ hsib hchild
    rcases place with _ | _
    · exact absurd rfl (hchild rfl)
    · exact ⟨a, .refl a, hsib rfl, by simp [above]⟩
  | cons l kids rest ihk ihr =>
    intro place a hl hs hc hsib _
    simp only [Forest.nodes, List.forall_mem_cons, List.forall_mem_append] at hl
    obtain ⟨hl, hkids, hrest⟩ := hl
    set base := a.above place with hbase
    have hstarted : base.started = true := by rw [hbase, above_started, hs]
    have hopened : Leads below a (.node place l.kind l.name l.value :: l.attributeUnits)
        (base.opened l) := by
      have h := leads_opened below base hl.2
      rw [← hstarted] at h
      exact .cons (step_node hl hsib) h
    -- The node's children, if there are any, and their end.
    have hinner : Leads below (base.opened l) (kids.childUnits l.kind)
        ((base.opened l).adopt kids) := by
      rcases kids with _ | ⟨k, kk, kr⟩
      · rw [adopt_nil]
        exact .refl _
      · obtain ⟨b, hb, hne, hclose⟩ := ihk .child (base.opened l) hkids hstarted
          (nests_opened base l) (by simp) (by simp)
        refine hb.trans (.single ?_)
        have hmore : b.close.isComplete = false := by
          rw [hclose, above, adopt_isComplete]
          exact hc.opened_isComplete l
        rw [step_close hne, if_neg (by simp [hmore]), hclose]
        rfl
    have hnode := close_adopt_opened base l kids
    obtain ⟨b, hb, hne, hclose⟩ := ihr .sibling ((base.opened l).adopt kids) hrest
      (by rw [adopt_started]; exact hstarted)
      (by rw [above, hnode, nests_adopt]; exact hc)
      (fun _ => by simp [opened]) (by simp)
    refine ⟨b, ?_, hne, ?_⟩
    · rw [Forest.units_cons, ← List.cons_append]
      exact hopened.trans (hinner.trans hb)
    · rw [hclose, above, hnode, adopt_adopt]
      rfl

/-! ## Units of messages -/

/-- Reading the units ends the message with the last of them, in the state `b`. -/
def Completes (below : Bool) (a : Assembly) (us : List WireUnit) (b : Assembly) : Prop :=
  ∃ vs u c, us = vs ++ [u] ∧ Leads below a vs c ∧ c.step below u = .ok (.complete b)

theorem forest_close (a : Assembly) : a.close.forest = a.forest := by
  rcases a with ⟨started, isDocument, roots, _ | ⟨n, _ | ⟨m, path⟩⟩⟩ <;>
    simp [close, forest, forest.go]

theorem forest_adopt_of_path_eq_nil (h : a.path = []) (hr : a.roots = .nil) (f : Forest Label) :
    (a.adopt f).forest = f := by
  rcases a with ⟨started, isDocument, roots, path⟩
  subst h hr
  simp only [adopt, forest, forest.go]
  exact f.reverse_reverse

/-- The children of a message that starts with a document node, at the top, and their end. -/
theorem completes_children (below : Bool) {f : Forest Label} (kind : NodeKind)
    (hf : ∀ l ∈ f.nodes, l.SendableBelow) (hs : a.started = true) (hd : a.isDocument = true)
    (hp : a.path = []) : Completes below a (f.units .child ++ [.close kind]) (a.adopt f) := by
  rcases f with _ | ⟨l, kids, rest⟩
  · refine ⟨[], .close kind, a, rfl, .refl a, ?_⟩
    simp [step, hp, hd]
  · obtain ⟨c, hc, hne, hclose⟩ := leads_forest below (.cons l kids rest) .child a hf hs
      (fun _ => hd) (by simp) (by simp)
    rw [above] at hclose
    refine ⟨_, _, c, rfl, hc, ?_⟩
    rw [step_close hne, hclose, if_pos]
    rw [adopt_isComplete, isComplete_of_path_eq_nil hp]

/-- The children of the node at the top of a message that holds no document node, and their end. -/
theorem completes_single (below : Bool) {f : Forest Label} {l : Label} (kind : NodeKind)
    (hf : ∀ l ∈ f.nodes, l.SendableBelow) (hs : a.started = true) (hd : a.isDocument = false)
    (hp : a.path = []) :
    ∃ b, Completes below (a.opened l) (f.units .child ++ [.close kind]) b ∧
      b.forest = (a.adopt (.cons l f .nil)).forest := by
  have hcomplete : (a.opened l).isComplete = true := by simp [opened, isComplete, hp, hd]
  have hforest := congrArg forest (close_adopt_opened a l f)
  rw [forest_close] at hforest
  rcases f with _ | ⟨k, kk, kr⟩
  · have hclose := close_adopt_opened a l .nil
    rw [adopt_nil] at hclose hforest
    refine ⟨(a.opened l).close, ⟨[], .close kind, _, rfl, .refl _, ?_⟩, ?_⟩
    · rw [step_close (by simp [opened]), hclose, if_pos]
      rw [adopt_isComplete, isComplete_of_path_eq_nil hp]
    · rw [forest_close, hforest]
  · obtain ⟨c, hc, hne, hclose⟩ := leads_forest below (.cons k kk kr) .child
      (a.opened l) hf hs (nests_opened a l) (by simp) (by simp)
    rw [above] at hclose
    refine ⟨c.close, ⟨_, _, c, rfl, hc, ?_⟩, ?_⟩
    · rw [step_close hne, if_pos]
      rw [hclose, adopt_isComplete, hcomplete]
    · rw [hclose, hforest]

/-- The units of a tree are a message. It holds the tree, or for a document node the trees below
it. -/
theorem completes_units {t : Tree Label} (ht : t.Sendable)
    (hattrs : t.node.kind = .document → t.node.attributes = []) :
    ∃ b, Completes true .start t.units b ∧
      b.forest = if t.node.kind = .document then t.children else .single t := by
  obtain ⟨⟨kind, name, value, attributes⟩, kids⟩ := t
  rw [Tree.units_eq]
  by_cases hk : kind = .document
  · subst hk
    have hname := ht.1.named
    obtain rfl : attributes = [] := hattrs rfl
    have hdoc : start.step true (.node .child .document name value) =
        .ok (.more { start with started := true, isDocument := true }) := by
      simp only [step, start]
      simp [hname]
    obtain ⟨vs, u, c, hus, hc, hu⟩ := completes_children true
      (a := { start with started := true, isDocument := true }) .document ht.2 rfl rfl rfl
    refine ⟨_, ⟨_ :: vs, u, c, ?_, .cons hdoc hc, hu⟩, ?_⟩
    · rw [List.cons_append, ← hus]
      rfl
    · rw [forest_adopt_of_path_eq_nil rfl rfl, if_pos rfl]
  · have hstep : start.step true (.node .child kind name value) =
        .ok (.more (start.openNode kind name value)) := step_node ⟨hk, ht.1⟩ (by simp)
    have hattrs := leads_opened true start ht.1
    obtain ⟨b, ⟨vs, u, c, hus, hc, hu⟩, hb⟩ := completes_single true
      (a := { start with started := true }) (l := ⟨kind, name, value, attributes⟩) kind ht.2 rfl
      rfl rfl
    refine ⟨b, ⟨_, u, c, ?_, (Leads.cons hstep hattrs).trans hc, hu⟩, ?_⟩
    · rw [List.append_assoc, hus]
      simp
    · rw [hb, forest_adopt_of_path_eq_nil rfl rfl, if_neg hk]
      rfl

end Assembly

end Treegram
