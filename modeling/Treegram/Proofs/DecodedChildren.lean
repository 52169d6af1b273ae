import Treegram.Proofs.LinkedDocuments
import Treegram.Proofs.MessageGrammar
import Treegram.Proofs.Strays

/-!
# Where a message is put

A message that holds no document node leaves its first node as a new child of the node it is read
below (`decodeInto_children`). It need not be the only one: each unit that opens a sibling of the
top node makes another child.
-/

namespace Treegram

/-! ## Trees at the top -/

namespace Forest

variable {α : Type}

theorem length_trees_reverseOnto : ∀ f g : Forest α,
    (f.reverseOnto g).trees.length = f.trees.length + g.trees.length
  | .nil, g => by simp [reverseOnto, trees]
  | .cons a kids rest, g => by
    rw [reverseOnto, length_trees_reverseOnto rest, trees, trees, List.length_cons,
      List.length_cons]
    omega

theorem length_trees_reverse (f : Forest α) : f.reverse.trees.length = f.trees.length :=
  length_trees_reverseOnto f .nil

end Forest

/-- Whether the unit opens a sibling of the top node if it stands behind `front`. -/
def WireUnit.besideTop (front : List WireUnit) : WireUnit → Bool
  | .node .sibling _ _ _ => depth front == 1
  | _ => false

/-- How many of the units behind `front` open a sibling of the top node. -/
def siblingsOfTop (front : List WireUnit) : List WireUnit → Nat
  | [] => 0
  | u :: us => (u.besideTop front).toNat + siblingsOfTop (front ++ [u]) us

/-- The state after a unit that was not refused. -/
def Progress.state : Progress → Assembly
  | more a => a
  | complete a => a

namespace Assembly

variable {below : Bool} {front us : List WireUnit} {u : WireUnit} {a b c : Assembly}
  {p : Progress}

/-- The number of trees read so far, one that is still open included. -/
def topCount (a : Assembly) : Nat :=
  a.roots.trees.length + if a.path = [] then 0 else 1

theorem length_trees_go (roots : Forest Label) : ∀ path : List OpenNode,
    (forest.go roots path).trees.length = roots.trees.length + if path = [] then 0 else 1
  | [] => by rw [forest.go, Forest.length_trees_reverse]; rfl
  | [n] => by rw [forest.go, Forest.length_trees_reverse]; rfl
  | n :: above :: path => by
    rw [forest.go, length_trees_go]
    rfl
termination_by path => path.length

theorem length_trees_forest (a : Assembly) : a.forest.trees.length = a.topCount :=
  length_trees_go a.roots a.path

/-- Another innermost node is at the top only if there was none. -/
theorem topCount_openNode (a : Assembly) (kind : NodeKind) (name value : String) :
    (a.openNode kind name value).topCount = a.roots.trees.length + 1 := by
  simp [topCount, openNode]

theorem topCount_close (a : Assembly) : a.close.topCount = a.topCount := by
  rcases a with ⟨started, isDocument, roots, _ | ⟨n, _ | ⟨m, path⟩⟩⟩ <;>
    simp [close, topCount, Forest.trees]

/-! ## One unit -/

/-- A unit that is read where documents are unwelcome is read where they are. -/
theorem Steps.welcome (h : a.Steps below u p) : a.Steps true u p := by
  cases h with
  | document hb hs hn => exact .document rfl hs hn
  | child hk hn => exact .child hk hn
  | sibling hk hn hp => exact .sibling hk hn hp
  | attr hp hn => exact .attr hp hn
  | endNothing hp hd => exact .endNothing hp hd
  | endMessage hp hc => exact .endMessage hp hc
  | endNode hp hc => exact .endNode hp hc

/-- Unless the message is that of a document, a node is open behind a unit that does not end it. -/
theorem Steps.nests (h : a.Steps below u (.more c)) : c.Nests := by
  intro hnil
  cases h with
  | document hb hs hn => rfl
  | child hk hn => simp [openNode] at hnil
  | sibling hk hn hp => simp [openNode] at hnil
  | attr hp hn => simp at hnil
  | endNode hp hc => simp [isComplete_of_path_eq_nil hnil] at hc

/-- The first unit of a message that holds no document node opens its top node. -/
theorem Steps.opens_top (h : start.Steps below u p) (hu : ¬ OpensDocument [u]) :
    ∃ kind name value, p = .more (start.openNode kind name value) := by
  cases h with
  | document hb hs hn => exact absurd ⟨_, _, rfl⟩ hu
  | child hk hn => exact ⟨_, _, _, rfl⟩
  | sibling hk hn hp => exact absurd rfl hp
  | attr hp hn => simp [start] at hp
  | endNothing hp hd => simp [start] at hd
  | endMessage hp hc => exact absurd rfl hp
  | endNode hp hc => exact absurd rfl hp

/-- Behind the first unit, only siblings of the top node add to the trees at the top. -/
theorem Tracks.topCount_steps (ht : Tracks front a) (hopen : a.path ≠ []) (h : a.Steps below u p) :
    p.state.topCount = a.topCount + (u.besideTop front).toNat ∧
      p.state.isDocument = a.isDocument := by
  have hdepth := ht.depth
  cases h with
  | document hb hs hn => simp [ht.started_of_path hopen] at hs
  | child hk hn =>
    refine ⟨?_, rfl⟩
    rw [Progress.state, topCount_openNode, topCount, if_neg hopen]
    rfl
  | sibling hk hn hp =>
    refine ⟨?_, isDocument_close a⟩
    rw [Progress.state, topCount_openNode, WireUnit.besideTop, ← hdepth, topCount, if_neg hopen]
    rcases a with ⟨started, isDocument, roots, _ | ⟨n, _ | ⟨m, path⟩⟩⟩
    · exact absurd rfl hopen
    · simp [close, Forest.trees]
    · have hdeep : (((n :: m :: path).length : Int) == 1) = false := by
        rw [beq_eq_false_iff_ne, List.length_cons, List.length_cons]
        omega
      dsimp only [close]
      rw [hdeep]
      rfl
  | attr hp hn =>
    refine ⟨?_, rfl⟩
    simp [Progress.state, topCount, hp, WireUnit.besideTop]
  | endNothing hp hd => exact absurd hp hopen
  | endMessage hp hc => exact ⟨topCount_close a, isDocument_close a⟩
  | endNode hp hc => exact ⟨topCount_close a, isDocument_close a⟩

/-! ## Many units -/

theorem Completes.welcome (h : a.Completes below us b) : a.Completes true us b := by
  induction us generalizing a with
  | nil => simp [Completes] at h
  | cons u us ih =>
    simp only [completes_cons_iff, step_eq_ok_iff] at h ⊢
    rcases h with ⟨hus, hs⟩ | ⟨c, hs, hc⟩
    · exact .inl ⟨hus, hs.welcome⟩
    · exact .inr ⟨c, hs.welcome, ih hc⟩

theorem Completes.topCount (h : a.Completes below us b) (ht : Tracks front a)
    (hd : a.isDocument = false) (hopen : a.path ≠ []) :
    b.topCount = a.topCount + siblingsOfTop front us ∧ b.isDocument = false := by
  induction us generalizing front a with
  | nil => simp [Completes] at h
  | cons u us ih =>
    simp only [completes_cons_iff, step_eq_ok_iff] at h
    rw [siblingsOfTop]
    rcases h with ⟨rfl, hs⟩ | ⟨c, hs, hc⟩
    · obtain ⟨hcount, hdoc⟩ := ht.topCount_steps hopen hs
      exact ⟨hcount, hdoc.trans hd⟩
    · obtain ⟨hcount, hdoc⟩ := ht.topCount_steps hopen hs
      have hcd : c.isDocument = false := hdoc.trans hd
      -- A node is still open, or the unit would have ended the message.
      obtain ⟨hrest, hb⟩ := ih hc (ht.goes_on hs).2 hcd fun hnil => by
        simp [hs.nests hnil] at hcd
      rw [Progress.state] at hcount
      exact ⟨by rw [hrest, hcount, Nat.add_assoc], hb⟩

/-- A message that holds no document node has one tree at the top and one more for each unit that
opens a sibling of its top node. -/
theorem Completes.length_trees (h : start.Completes below us b) (hus : ¬ OpensDocument us) :
    b.forest.trees.length = siblingsOfTop [] us + 1 ∧ b.isDocument = false := by
  rcases us with _ | ⟨u, us⟩
  · simp [Completes] at h
  · simp only [completes_cons_iff, step_eq_ok_iff] at h
    -- The first unit opens the top node; it does not stand beside another.
    have hfirst {p : Progress} (hs : start.Steps below u p) := hs.opens_top hus
    rcases h with ⟨rfl, hs⟩ | ⟨c, hs, hc⟩
    · obtain ⟨kind, name, value, hp⟩ := hfirst hs
      simp at hp
    · obtain ⟨kind, name, value, hp⟩ := hfirst hs
      obtain rfl := Progress.more.inj hp
      obtain ⟨hcount, hd⟩ := hc.topCount (tracks_start.goes_on hs).2 rfl (by simp [openNode])
      refine ⟨?_, hd⟩
      have hbeside : u.besideTop [] = false := by
        rcases u with ⟨_ | _, kind, name, value⟩ | _ | _ <;> rfl
      rw [length_trees_forest, hcount, topCount_openNode, siblingsOfTop, hbeside]
      simp [start, Forest.trees, Nat.add_comm]

end Assembly

/-! ## New nodes -/

namespace Document

variable {d d' : Document} {id : NodeId} {ids : List NodeId}

theorem length_tops_number : ∀ (f : Forest Label) (s : Slots),
    (number s f).1.tops.length = f.trees.length
  | .nil, _ => rfl
  | .cons _ _ rest, _ => congrArg (· + 1) (length_tops_number rest _)

/-- The first new node gets the slot that is next. -/
theorem exists_tops_number {f : Forest Label} {n : Nat} (s : Slots) (h : f.trees.length = n + 1) :
    ∃ more, (number s f).1.tops = ⟨s.next⟩ :: more ∧ more.length = n := by
  have hlength := length_tops_number f s
  rcases f with _ | ⟨l, kids, rest⟩
  · simp [Forest.trees] at h
  · rw [h] at hlength
    exact ⟨_, rfl, Nat.succ.inj hlength⟩

theorem children_eq_ok_iff : d.children id = .ok ids ↔
    ∃ t, d.subtree? id = some t ∧ t.children.tops = ids := by
  unfold children subtree
  simp only [← Forest.tops_eq_map]
  rcases d.subtree? id with _ | t <;> simp [Except.map]

theorem Sound.children_graft (h : d.Sound) {f : Forest Label} (hg : d.graft id f = .ok d')
    (hc : d.children id = .ok ids) : d'.children id = .ok (ids ++ (number d.slots f).1.tops) := by
  obtain ⟨t, ht, rfl⟩ := children_eq_ok_iff.1 hc
  refine children_eq_ok_iff.2 ⟨_, by rw [h.subtree?_graft hg, ht]; rfl, ?_⟩
  exact Forest.tops_append _ _

/-! ## Documents that are made -/

/-- Whether calls make the document of nothing but a document node, whatever nodes they are for and
whether they fail or not. -/
inductive Made : Document → Prop
  | empty : Made .empty
  | edit {d : Document} (e : Edit) : Made d → Made (d.edit e)
  | decode {σ : Type} [ByteSource σ] {d d' : Document} {parent : NodeId} {s rest : σ}
    {result : Except Fault NodeId} : Made d →
    Wire.decodeInto d parent s = .ok ((d', result), rest) → Made d'

/-- What is read below a node is grafted on. -/
theorem exists_graft_of_decodeInto {σ : Type} [ByteSource σ] {parent : NodeId} {s rest : σ}
    {result : Except Fault NodeId} (h : Wire.decodeInto d parent s = .ok ((d', result), rest)) :
    ∃ f, d.graft parent f = .ok d' := by
  unfold Wire.decodeInto at h
  rcases ht : d.subtree parent with cause | t <;> simp only [ht, bind, Except.bind] at h
  · simp at h
  · rcases hg : d.graft parent (Wire.decode (t.node.label.kind == .document) s).1.forest with
      cause | d₁ <;> simp only [hg] at h
    · simp at h
    · obtain ⟨⟨rfl, -⟩, -⟩ := Prod.mk.inj (Except.ok.inj h)
      exact ⟨_, hg⟩

/-- In a document that calls can make, no stray has lost its own node. -/
theorem Made.sound {d : Document} (h : d.Made) : d.Sound := by
  induction h with
  | empty => exact sound_empty
  | edit e _ ih => exact Stray.sound_kept.edit_strays ih e
  | decode _ hd ih =>
    obtain ⟨f, hg⟩ := exists_graft_of_decodeInto hd
    exact Stray.sound_kept.graft_strays ih hg

end Document

namespace Wire

variable {d d' : Document} {parent top : NodeId}

theorem decodeInto_eq_ok_iff {s s' : Bytes} :
    decodeInto d parent s = .ok ((d', .ok top), s') ↔
      ∃ t a, d.subtree parent = .ok t ∧
        assembled (t.node.label.kind == .document) .start s = (.ok a, s') ∧
        d.graft parent a.forest = .ok d' ∧
        (if a.isDocument then parent else ⟨d.slots.next⟩) = top := by
  unfold decodeInto decode assembled
  rcases d.subtree parent with cause | t
  · simp [bind, Except.bind]
  · simp only [bind, Except.bind, Except.ok.injEq, exists_and_left, exists_eq_left', pure,
      Except.pure]
    rcases assemble (t.node.label.kind == .document) .start s with ⟨⟨a, _ | e⟩, s₁⟩
    · rcases hg : d.graft parent a.forest with cause | d₁
      · simp [hg]
      · simp [hg, and_comm, and_assoc]
    · rcases hg : d.graft parent a.forest with cause | d₁ <;> simp

/-- However a document was made, the first node of a message that holds no document node is a new
child of the node the message is read below, behind the children that were there, and the result.
After it there is one more for each unit that opens a sibling of the top node. -/
theorem decodeInto_children {old : List NodeId} {b rest : Bytes} (hd : d.Made)
    (hparent : d.children parent = .ok old)
    (hb : b.head? ≠ some (Control.newChild.byte NodeKind.document.tag))
    (h : decodeInto d parent b = .ok ((d', .ok top), rest)) :
    ∃ us more, ((∀ u ∈ us, u.Fits) ∧ IsMessage us ∧ b = us.flatMap WireUnit.bytes ++ rest) ∧
      d'.children parent = .ok (old ++ top :: more) ∧ more.length = siblingsOfTop [] us := by
  obtain ⟨t, a, ht, ha, hg, rfl⟩ := decodeInto_eq_ok_iff.1 h
  obtain ⟨us, hfits, hcompletes, rfl⟩ := assembled_eq_ok_iff.1 ha
  have hus : ¬ OpensDocument us := by
    rintro ⟨name, value, hhead⟩
    obtain ⟨us, rfl⟩ := List.head?_eq_some_iff.1 hhead
    exact hb rfl
  obtain ⟨hlength, hdoc⟩ := hcompletes.length_trees hus
  obtain ⟨more, htops, hmore⟩ := Document.exists_tops_number d.slots hlength
  have hchildren := hd.sound.children_graft hg hparent
  rw [htops] at hchildren
  refine ⟨us, more, ⟨hfits, Assembly.isMessage_iff_completes.2 ⟨a, hcompletes.welcome⟩, rfl⟩, ?_,
    hmore⟩
  rw [hdoc]
  exact hchildren

/-- Two elements side by side, and the end of the children of what is above them. -/
def twins : List WireUnit :=
  [.node .child .element "a" "", .node .sibling .element "b" "", .close .element]

theorem head?_twins : (twins.flatMap WireUnit.bytes).head? ≠
    some (Control.newChild.byte NodeKind.document.tag) := by
  decide

theorem decodeInto_twins {d d' : Document} {t : Tree Node} (parent : NodeId)
    (ht : d.subtree parent = .ok t)
    (hg : d.graft parent (.cons (.element "a" "") .nil (.cons (.element "b" "") .nil .nil)) =
      .ok d') :
    decodeInto d parent (twins.flatMap WireUnit.bytes) =
      .ok ((d', .ok ⟨d.slots.next⟩), []) := by
  have hfits : ∀ u ∈ twins, u.Fits := by
    have hshort : Short "a" ∧ Short "b" ∧ Short "" := by
      unfold Short
      decide
    simp [twins, WireUnit.Fits, hshort]
  let a := (Assembly.start.openNode .element "a" "").close.openNode .element "b" ""
  have hcompletes (below : Bool) : Assembly.start.Completes below twins a.close :=
    ⟨[_, _], _, a, rfl, .cons rfl (.cons rfl (.refl _)), rfl⟩
  have hforest : a.close.forest =
      .cons (.element "a" "") .nil (.cons (.element "b" "") .nil .nil) := by
    show Assembly.forest.go _ [] = _
    rw [Assembly.forest.go]
    rfl
  have hread (below : Bool) :
      assembled below .start (twins.flatMap WireUnit.bytes) = (.ok a.close, []) :=
    assembled_eq_ok_iff.2 ⟨twins, hfits, hcompletes below, (List.append_nil _).symm⟩
  exact decodeInto_eq_ok_iff.2 ⟨t, _, ht, hread _, by rw [hforest, hg], rfl⟩

theorem decodeInto_children_sample :
    ∃ d', (Document.empty.Made ∧ Document.empty.children ⟨0⟩ = .ok [] ∧
        (twins.flatMap WireUnit.bytes).head? ≠
          some (Control.newChild.byte NodeKind.document.tag) ∧
        decodeInto .empty ⟨0⟩ (twins.flatMap WireUnit.bytes) = .ok ((d', .ok ⟨1⟩), [])) ∧
      ∃ us more, ((∀ u ∈ us, u.Fits) ∧ IsMessage us ∧
          twins.flatMap WireUnit.bytes = us.flatMap WireUnit.bytes ++ []) ∧
        d'.children ⟨0⟩ = .ok ([] ++ ⟨1⟩ :: more) ∧ more.length = siblingsOfTop [] us := by
  have h := decodeInto_twins (d := .empty) ⟨0⟩ rfl rfl
  exact ⟨_, ⟨.empty, rfl, head?_twins, h⟩, decodeInto_children .empty rfl head?_twins h⟩

/-- A message may leave more than one child. -/
theorem not_decodeInto_single :
    ¬ ∀ (d d' : Document) (parent top : NodeId) (old : List NodeId) (b rest : Bytes), d.Made →
      d.children parent = .ok old →
      b.head? ≠ some (Control.newChild.byte NodeKind.document.tag) →
      decodeInto d parent b = .ok ((d', .ok top), rest) →
      d'.children parent = .ok (old ++ [top]) := by
  intro hall
  have hone := hall .empty _ ⟨0⟩ _ [] _ _ .empty rfl head?_twins (decodeInto_twins ⟨0⟩ rfl rfl)
  exact absurd hone (by decide)

end Wire

end Treegram
