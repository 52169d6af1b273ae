import Treegram.Proofs.EditEffects
import Treegram.Proofs.SendingOn
import Treegram.Wire.Cursor

/-!
# Where the cursor stands

While a message is read, its nodes stand behind the old children of the node it is read below, and
the cursor at the innermost node that is open (`Cursor.Follows`). Each unit does the same to the
linked nodes as to the trees that are put together apart from them (`Follows.step`), so the cursor
never leaves the new nodes, and has as many of them above it as it counts.
-/

namespace Treegram

/-! ## Trees that are put in order -/

namespace Forest

variable {α : Type}

theorem reverseOnto_append_right : ∀ f g h : Forest α,
    f.reverseOnto (g ++ h) = f.reverseOnto g ++ h
  | .nil, _, _ => rfl
  | .cons a kids rest, g, h => reverseOnto_append_right rest (.cons a kids g) h

theorem reverse_cons (a : α) (kids rest : Forest α) :
    (cons a kids rest).reverse = rest.reverse ++ .cons a kids .nil :=
  reverseOnto_append_right rest .nil (.cons a kids .nil)

end Forest

namespace Document

theorem number_cons (s : Slots) (l : Label) (kids rest : Forest Label) :
    let below := number s.advance kids
    let behind := number below.2 rest
    number s (.cons l kids rest) = (.cons ⟨⟨s.next⟩, l⟩ below.1 behind.1, behind.2) :=
  rfl

theorem number_append : ∀ (f g : Forest Label) (s : Slots),
    number s (f ++ g) =
      ((number s f).1 ++ (number (number s f).2 g).1, (number (number s f).2 g).2)
  | .nil, _, _ => rfl
  | .cons l kids rest, g, s => by
    show number s (.cons l kids (rest ++ g)) = _
    rw [number_cons, number_cons, number_append rest g]
    rfl

end Document

/-- Where trees are put one after the other: the siblings there, and the slots that are left. -/
structure Site where
  spot : Spot
  kids : Forest Node
  slots : Slots

namespace Site

def forest (s : Site) : Forest Node :=
  s.spot.fill s.kids

/-- With the trees of `f` behind the siblings. -/
def put (s : Site) (f : Forest Label) : Site :=
  ⟨s.spot, s.kids ++ (Document.number s.slots f).1, (Document.number s.slots f).2⟩

/-- Below a new last sibling. -/
def enter (s : Site) (l : Label) : Site :=
  ⟨.under ⟨⟨s.slots.next⟩, l⟩ s.kids .nil s.spot, .nil, s.slots.advance⟩

variable (s : Site) (f g : Forest Label) (l : Label)

@[simp] theorem put_nil : s.put .nil = s := by
  rw [put, Document.number, Forest.append_nil]

theorem put_put : (s.put f).put g = s.put (f ++ g) := by
  simp only [put, Document.number_append, Forest.append_assoc]

/-- What was put below a node stands where the node with all of it would. -/
theorem forest_enter_put :
    ((s.enter l).put f).forest = (s.put (.cons l f .nil)).forest ∧
      ((s.enter l).put f).slots = (s.put (.cons l f .nil)).slots :=
  ⟨rfl, rfl⟩

end Site

namespace Assembly

variable (base : Site)

/-- Below the innermost open node, if all that was read was put somewhere in order. -/
def site (a : Assembly) : Site :=
  go a.roots a.path
where
  go (roots : Forest Label) : List OpenNode → Site
    | [] => base.put roots.reverse
    | n :: path => ((go roots path).enter n.finished).put n.children.reverse

theorem site_start : start.site base = base :=
  base.put_nil

theorem site_of_path {a : Assembly} {n : OpenNode} {path : List OpenNode} (h : a.path = n :: path) :
    a.site base =
      ((site.go base a.roots path).enter n.finished).put n.children.reverse := by
  rw [site, h]
  rfl

/-- A node that is closed stands behind its siblings. -/
theorem site_close {a : Assembly} {n : OpenNode} {path : List OpenNode} (h : a.path = n :: path) :
    a.close.site base =
      (site.go base a.roots path).put (.cons n.finished n.children.reverse .nil) := by
  rcases a with ⟨started, isDocument, roots, path'⟩
  subst h
  rcases path with _ | ⟨m, path⟩
  · show base.put (Forest.reverse (.cons n.finished n.children.reverse roots)) = _
    rw [Forest.reverse_cons, ← Site.put_put]
    rfl
  · show Site.put _ (Forest.reverse (.cons n.finished n.children.reverse m.children)) = _
    rw [Forest.reverse_cons, ← Site.put_put]
    rfl

theorem site_forest : ∀ a : Assembly,
    (a.site base).forest = (base.put a.forest).forest ∧
      (a.site base).slots = (base.put a.forest).slots
  | ⟨started, isDocument, roots, []⟩ => by
    rw [forest, forest.go]
    exact ⟨rfl, rfl⟩
  | ⟨started, isDocument, roots, n :: path⟩ => by
    have hclose := site_forest (close ⟨started, isDocument, roots, n :: path⟩)
    rw [forest_close, site_close base rfl] at hclose
    exact hclose
termination_by a => a.path.length
decreasing_by
  rw [length_close]
  exact Nat.lt_succ_self _

theorem site_openNode (a : Assembly) (kind : NodeKind) (name value : String) :
    (a.openNode kind name value).site base = (a.site base).enter (.plain kind name value) :=
  Site.put_nil _

/-- There is a node above all of it, if there is one above where it was put. -/
theorem exists_parent_site {parent : NodeId} (h : base.spot.parent? = some parent)
    (roots : Forest Label) :
    ∀ path : List OpenNode, ∃ p, (site.go base roots path).spot.parent? = some p
  | [] => ⟨parent, h⟩
  | _ :: _ => ⟨_, rfl⟩

end Assembly

/-! ## New attributes -/

namespace Forest

variable {id : NodeId} {g : Label → Label} {front kids back : Forest Node} {n : Node}

theorem relabel_of_not_mem : ∀ {f : Forest Node}, id ∉ f.ids → f.relabel id g = f
  | .nil, _ => rfl
  | .cons n kids rest, h => by
    simp only [ids_cons, List.mem_cons, List.mem_append, not_or] at h
    rw [relabel_cons, if_neg (Ne.symm h.1), relabel_of_not_mem h.2.1, relabel_of_not_mem h.2.2]

theorem relabel_append (f : Forest Node) : ∀ front : Forest Node,
    (front ++ f).relabel id g = front.relabel id g ++ f.relabel id g
  | .nil => rfl
  | .cons n kids rest => by
    rw [cons_append, relabel_cons, relabel_cons, relabel_append f rest, cons_append]

end Forest

namespace Spot

variable {id : NodeId} {g : Label → Label} {front kids back : Forest Node} {n : Node}

theorem relabel_fill : ∀ {s : Spot} {f : Forest Node}, id ∉ s.ids →
    (s.fill f).relabel id g = s.fill (f.relabel id g)
  | top, _, _ => rfl
  | under n front back above, f, h => by
    simp only [ids, List.mem_cons, List.mem_append, not_or] at h
    obtain ⟨hn, ⟨hfront, hback⟩, habove⟩ := h
    rw [fill, relabel_fill habove, Forest.relabel_append, Forest.relabel_of_not_mem hfront,
      Forest.relabel_cons, if_neg (Ne.symm hn), Forest.relabel_of_not_mem hback]
    rfl

theorem eq_under {s : Spot} (h : s.parent? = some id) :
    ∃ n front back above, s = under n front back above ∧ n.id = id := by
  cases s with
  | top => simp [parent?] at h
  | under n front back above => exact ⟨n, front, back, above, rfl, Option.some.inj h⟩

/-- A node that gets another label stays where it stands. -/
theorem relabel_fill_node {s : Spot} (h : (s.fill (front ++ .cons n kids back)).ids.Nodup) :
    (s.fill (front ++ .cons n kids back)).relabel n.id g =
      s.fill (front ++ .cons ⟨n.id, g n.label⟩ kids back) := by
  obtain ⟨hs, hfront⟩ := not_mem_of_nodup_fill h
  obtain ⟨-, hd, -⟩ := nodup_fill.1 h
  rw [Forest.ids_append, Forest.ids_cons, List.nodup_append', List.nodup_cons, List.mem_append,
    not_or] at hd
  obtain ⟨-, ⟨⟨hkids, hback⟩, -⟩, -⟩ := hd
  rw [relabel_fill hs, Forest.relabel_append, Forest.relabel_of_not_mem hfront,
    Forest.relabel_cons, if_pos rfl, Forest.relabel_of_not_mem hkids,
    Forest.relabel_of_not_mem hback]

end Spot

theorem Document.forest_relabel {d d' : Document} {id : NodeId} {g : Label → Label}
    (h : d.relabel id g = .ok d') : d'.forest = d.forest.relabel id g ∧ d'.slots = d.slots := by
  unfold relabel at h
  split at h
  · obtain rfl := Except.ok.inj h
    exact ⟨rfl, rfl⟩
  · simp at h

/-! ## Edits that add -/

/-- Whether the edit adds a last child or an attribute. -/
def Edit.adds : Edit → Bool
  | appendChild .. | appendAttribute .. => true
  | _ => false

theorem Document.acceptsAll_concat (e : Edit) : ∀ (es : List Edit) (d : Document),
    d.acceptsAll (es ++ [e]) = (d.acceptsAll es && (es.foldl Document.edit d).accepts e)
  | [], d => by simp [acceptsAll]
  | e' :: es, d => by
    rw [List.cons_append, acceptsAll, acceptsAll, acceptsAll_concat e es, Bool.and_assoc]
    rfl

theorem LinkedDocument.run_append (es' : List Edit) : ∀ (es : List Edit) (c : LinkedDocument),
    c.run (es ++ es') = (c.run es).bind fun c' => c'.run es'
  | [], _ => rfl
  | e :: es, c => by
    rw [List.cons_append, run, run]
    rcases c.edit e with _ | c'
    · rfl
    · exact run_append es' es c'

/-- Whether edits that add make one document of the other, and the same of the linked nodes. -/
def Grows (c : LinkedDocument) (d : Document) (c' : LinkedDocument) (d' : Document) : Prop :=
  ∃ es : List Edit, (∀ e ∈ es, e.adds = true) ∧ d.acceptsAll es = true ∧ c.run es = some c' ∧
    es.foldl Document.edit d = d'

namespace Grows

variable {c c' c'' : LinkedDocument} {d d' : Document} {e : Edit}

theorem refl (c : LinkedDocument) (d : Document) : Grows c d c d :=
  ⟨[], by simp, rfl, rfl, rfl⟩

theorem snoc (h : Grows c d c' d') (ha : e.adds = true) (hd : d'.accepts e = true)
    (hc : c'.edit e = some c'') : Grows c d c'' (d'.edit e) := by
  obtain ⟨es, hes, haccepts, hrun, rfl⟩ := h
  refine ⟨es ++ [e], ?_, ?_, ?_, ?_⟩
  · rw [List.forall_mem_append, List.forall_mem_singleton]
    exact ⟨hes, ha⟩
  · rw [Document.acceptsAll_concat, haccepts, hd]
    rfl
  · rw [LinkedDocument.run_append, hrun, Option.bind_some, LinkedDocument.run, hc]
    rfl
  · rw [List.foldl_append]
    rfl

end Grows

/-- Whether edits that add made of the document one whose nodes are those of the site, and the same of
the linked nodes. -/
def GrownTo (c : LinkedDocument) (d : Document) (c' : LinkedDocument) (s : Site) : Prop :=
  ∃ d', Grows c d c' d' ∧ c'.Holds d' ∧ d'.forest = s.forest ∧ d'.slots = s.slots

namespace GrownTo

variable {c c' : LinkedDocument} {d : Document} {s s' : Site} {p : NodeId}

theorem congr (h : GrownTo c d c' s) (hforest : s.forest = s'.forest) (hslots : s.slots = s'.slots) :
    GrownTo c d c' s' := by
  obtain ⟨d', hgrows, hholds, hf, hs⟩ := h
  exact ⟨d', hgrows, hholds, hf.trans hforest, hs.trans hslots⟩

theorem exists_node (h : GrownTo c d c' s) (hp : s.spot.parent? = some p) :
    ∃ n, c'.get? p = some n := by
  obtain ⟨d', -, hholds, hf, -⟩ := h
  rw [← Option.isSome_iff_exists, ← hholds.live, hf]
  exact Spot.mem_ids_fill.2 (.inl (Spot.parent?_mem_ids hp))

/-- The node above the siblings has the links of its place. -/
theorem at_parent (h : GrownTo c d c' s) {n : Node} {front back : Forest Node} {above : Spot}
    (hspot : s.spot = .under n front back above) :
    ∃ m, c'.get? n.id = some m ∧ m.label = n.label ∧ m.links.parent = above.parent? := by
  obtain ⟨d', -, hholds, hf, -⟩ := h
  have hf' : d'.forest = above.fill (front ++ .cons n s.kids back) := by
    rw [hf, Site.forest, hspot]
    rfl
  obtain ⟨-, -, hget, -⟩ := hholds.at_node hf'
  exact ⟨_, hget, rfl, rfl⟩

theorem appendChild (h : GrownTo c d c' s) (hp : s.spot.parent? = some p) (kind : NodeKind)
    (name value : String) : ∃ c'', c'.appendChild p (.plain kind name value) =
      some (⟨s.slots.next⟩, c'') ∧ GrownTo c d c'' (s.enter (.plain kind name value)) := by
  obtain ⟨d', hgrows, hholds, hf, hslots⟩ := h
  obtain ⟨n, front, back, above, hspot, rfl⟩ := Spot.eq_under hp
  have hf' : d'.forest = above.fill (front ++ .cons n s.kids back) := by
    rw [hf, Site.forest, hspot]
    rfl
  have hlive : n.id ∈ d'.forest.ids := by
    rw [hf', Spot.mem_ids_fill]
    simp
  have hnext : c'.nextId = ⟨s.slots.next⟩ := by rw [hholds.nextId, hslots]
  obtain ⟨c'', hc'', h''⟩ := hholds.appendChild hlive (.plain kind name value)
  have hforest := hholds.forest_appendChild hf' (.plain kind name value)
  obtain ⟨-, -, hslots', -⟩ := Document.appendChild_of_contains ((hholds.contains _).2 hlive)
    hholds.strays (.plain kind name value)
  rw [hnext] at hc'' hforest
  refine ⟨c'', hc'', _, hgrows.snoc (e := .appendChild n.id kind name value) rfl ?_ ?_, h'', ?_, ?_⟩
  · simp [Document.accepts, Edit.target, Edit.needsParent, (hholds.contains _).2 hlive]
  · rw [LinkedDocument.edit, hc'']
    rfl
  · refine hforest.trans ?_
    rw [Site.forest, Site.enter, hspot]
    rfl
  · refine hslots'.trans ?_
    rw [hslots]
    rfl

/-- The latest node may get an attribute, whatever was put below it. -/
theorem appendAttribute {l : Label} {f : Forest Label}
    (h : GrownTo c d c' ((s.enter l).put f)) (name value : String) :
    ∃ c'', c'.relabel ⟨s.slots.next⟩ (fun l => l.addAttribute name value) = some c'' ∧
      GrownTo c d c'' ((s.enter (l.addAttribute name value)).put f) := by
  obtain ⟨d', hgrows, hholds, hf, hslots⟩ := h
  have hf' : d'.forest =
      s.spot.fill (s.kids ++ .cons ⟨⟨s.slots.next⟩, l⟩ ((s.enter l).put f).kids .nil) := hf
  have hlive : ⟨s.slots.next⟩ ∈ d'.forest.ids := by
    rw [hf', Spot.mem_ids_fill]
    simp
  obtain ⟨c'', d'', hc'', hd'', h''⟩ := hholds.relabel hlive fun l => l.addAttribute name value
  obtain ⟨hforest, hslots'⟩ := Document.forest_relabel hd''
  have hedit : d'.edit (.appendAttribute ⟨s.slots.next⟩ name value) = d'' := by
    rw [Document.edit, Document.appendAttribute, hd'']
    rfl
  refine ⟨c'', hc'', d'', ?_, h'', ?_, hslots'.trans hslots⟩
  · rw [← hedit]
    refine hgrows.snoc (e := .appendAttribute ⟨s.slots.next⟩ name value) rfl ?_ hc''
    simp [Document.accepts, Edit.target, Edit.needsParent, (hholds.contains _).2 hlive]
  · have hd := hholds.nodup
    rw [hf'] at hd hforest
    exact hforest.trans (Spot.relabel_fill_node hd)

end GrownTo

/-! ## The cursor and the nodes that were read -/

namespace Cursor

variable {σ : Type} [ByteSource σ] {parent : NodeId} {k : Cursor} {s s' : σ}

theorem read_of_error {e : Fault} (h : Wire.readUnit s = (.error e, s')) :
    k.read parent s = some ((k.document, .error (.fault e)), s') := by
  rw [read]
  split <;> rename_i h' <;> rw [h] at h'
  · simp only [Prod.mk.injEq, Except.error.injEq] at h'
    obtain ⟨rfl, rfl⟩ := h'
    rfl
  · simp at h'

theorem read_of_readUnit {u : WireUnit} (h : Wire.readUnit s = (.ok u, s')) :
    k.read parent s =
      match k.step parent u with
      | none => none
      | some (.error cause) => some ((k.document, .error cause), s')
      | some (.ok (.done k' top)) => some ((k'.document, .ok top), s')
      | some (.ok (.more k')) => k'.read parent s' := by
  rw [read]
  split <;> rename_i h' <;> rw [h] at h'
  · simp at h'
  · simp only [Prod.mk.injEq, Except.ok.injEq] at h'
    obtain ⟨rfl, rfl⟩ := h'
    rfl

end Cursor

/-- Whether the cursor stands where a message has got that is read below `parent`, into a document
that was `d` before; the nodes that were read stand behind what is at `base`. -/
structure Cursor.Follows (c : LinkedDocument) (d : Document) (base : Site) (parent : NodeId)
    (k : Cursor) (a : Assembly) : Prop where
  grown : GrownTo c d k.document (a.site base)
  node : (a.site base).spot.parent? = some k.node
  level : k.level = a.path.length
  limit : k.limit = if a.isDocument then 0 else 1
  first : k.first = !a.started
  start : a.started = false → a = .start
  top : k.top =
    if a.started then some (if a.isDocument then parent else ⟨base.slots.next⟩) else none

namespace Cursor.Follows

variable {c : LinkedDocument} {d : Document} {base : Site} {parent : NodeId} {k : Cursor}
  {a : Assembly} {n : OpenNode} {path : List OpenNode}

theorem started (h : k.Follows c d base parent a) (hp : a.path ≠ []) : a.started = true := by
  by_contra hs
  rw [h.start (by simpa using hs)] at hp
  exact hp rfl

theorem openNode (h : k.Follows c d base parent a) (kind : NodeKind) (name value : String) :
    ∃ k', k.open? k.node (k.level + 1) (.plain kind name value) = some (.ok (.more k')) ∧
      k'.Follows c d base parent (a.openNode kind name value) := by
  obtain ⟨c', hc', h'⟩ := h.grown.appendChild h.node kind name value
  rw [← Assembly.site_openNode] at h'
  set id : NodeId := ⟨(a.site base).slots.next⟩
  refine ⟨⟨c', id, k.level + 1, k.limit, k.top.or (some id), false⟩, ?_, h', ?_, ?_, h.limit, rfl,
    ?_, ?_⟩
  · unfold open?
    rw [hc']
    rfl
  · rw [Assembly.site_openNode]
    rfl
  · rw [h.level]
    rfl
  · simp [Assembly.openNode]
  -- the first node is the one that takes the slot that was next at the start
  · have htop := h.top
    by_cases hs : a.started = true
    · rw [if_pos hs] at htop
      rw [htop]
      rfl
    · rw [if_neg hs] at htop
      obtain rfl := h.start (by simpa using hs)
      have hid : id = ⟨base.slots.next⟩ :=
        congrArg (fun s : Site => (⟨s.slots.next⟩ : NodeId)) (Assembly.site_start base)
      rw [htop, hid]
      rfl

/-- The cursor can go up from a node of the message, to where the message has a node closed. -/
theorem close (h : k.Follows c d base parent a) (hbase : base.spot.parent? = some parent)
    (hp : a.path ≠ []) : ∃ n p, k.document.get? k.node = some n ∧ n.links.parent = some p ∧
      Follows c d base parent { k with node := p, level := k.level - 1, first := false }
        a.close := by
  obtain ⟨n, path, hpath⟩ := List.exists_cons_of_ne_nil hp
  obtain ⟨p, hparent⟩ := Assembly.exists_parent_site base hbase a.roots path
  have hsite := Assembly.site_of_path base hpath
  have hclose := Assembly.site_close base hpath
  set s := Assembly.site.go base a.roots path
  have hgrown := h.grown
  have hnode := h.node
  rw [hsite] at hgrown hnode
  obtain ⟨m, hget, -, hup⟩ := hgrown.at_parent rfl
  have hid : ⟨s.slots.next⟩ = k.node := Option.some.inj hnode
  rw [hid] at hget
  -- closing moves no node: it stands where it would with all that was put below it
  obtain ⟨hforest, hslots⟩ := s.forest_enter_put n.children.reverse n.finished
  rw [← hsite, ← hclose] at hforest hslots
  refine ⟨m, p, hget, hup.trans hparent, h.grown.congr hforest hslots, ?_, ?_, ?_, ?_, ?_, ?_⟩
  · rw [hclose]
    exact hparent
  · rw [Assembly.length_close, h.level]
  · rw [Assembly.isDocument_close, h.limit]
  · rw [Assembly.close_started, h.started hp]
    rfl
  · rw [Assembly.close_started, h.started hp]
    simp
  · rw [Assembly.close_started, Assembly.isDocument_close, h.top]

/-- The node of the cursor gets the attribute that the innermost open node gets. -/
theorem attr (h : k.Follows c d base parent a) {n : OpenNode} {path : List OpenNode}
    (hp : a.path = n :: path) (name value : String) :
    ∃ c', k.document.relabel k.node (fun l => l.addAttribute name value) = some c' ∧
      Follows c d base parent { k with document := c', first := false } { a with path :=
        { n with label.attributes := ⟨name, value⟩ :: n.label.attributes } :: path } := by
  let n' : OpenNode := { n with label.attributes := ⟨name, value⟩ :: n.label.attributes }
  have hfinished : n'.finished = n.finished.addAttribute name value := by
    simp [n', OpenNode.finished, Label.addAttribute]
  have hsite := Assembly.site_of_path base hp
  have hsite' := Assembly.site_of_path base (a := { a with path := n' :: path }) rfl
  have hgrown := h.grown
  have hnode := h.node
  rw [hsite] at hgrown hnode
  obtain ⟨c', hc', h'⟩ := hgrown.appendAttribute name value
  have hid : ⟨(Assembly.site.go base a.roots path).slots.next⟩ = k.node := Option.some.inj hnode
  rw [hid] at hc'
  rw [← hfinished] at h'
  refine ⟨c', hc', ?_, ?_, ?_, h.limit, ?_, ?_, h.top⟩
  · rw [hsite']
    exact h'
  · rw [hsite']
    exact hnode
  · rw [h.level, hp]
    rfl
  · rw [h.started (by rw [hp]; simp)]
    rfl
  · intro hs
    rw [h.started (by rw [hp]; simp)] at hs
    simp at hs

/-- The node the message is read below stays where it is. -/
theorem label_parent (h : k.Follows c d base parent a) {n : Node} {front back : Forest Node}
    {above : Spot} (hspot : base.spot = .under n front back above) :
    ∃ m, k.document.get? n.id = some m ∧ m.label = n.label := by
  obtain ⟨hforest, hslots⟩ := a.site_forest base
  obtain ⟨m, hm, hlabel, -⟩ := (h.grown.congr hforest hslots).at_parent hspot
  exact ⟨m, hm, hlabel⟩

/-- A document unit only counts. -/
theorem document (h : k.Follows c d base parent a) :
    Follows c d base parent { k with limit := 0, top := some parent, first := false }
      { a with started := true, isDocument := true } where
  grown := h.grown
  node := h.node
  level := h.level
  limit := rfl
  first := rfl
  start hstarted := by simp at hstarted
  top := rfl

/-- What a unit is to make of the cursor. -/
def Led (c : LinkedDocument) (d : Document) (base : Site) (parent : NodeId) :
    Except Malformed Progress → Option (Except Halt Move) → Prop
  | .error cause, m => m = halt cause
  | .ok (.more b), m => ∃ k, m = some (.ok (.more k)) ∧ Follows c d base parent k b
  | .ok (.complete b), m =>
    ∃ k, m = some (.ok (.done k (if b.isDocument then parent else ⟨base.slots.next⟩))) ∧
      Follows c d base parent k b

theorem step_node (h : k.Follows c d base parent a) (hbase : base.spot.parent? = some parent)
    (below : Bool) {kind : NodeKind} (hk : kind ≠ .document) (place : Place)
    (name value : String) :
    Led c d base parent (a.step below (.node place kind name value))
      (k.step parent (.node place kind name value)) := by
  simp only [Assembly.step, Cursor.step, if_neg hk]
  rcases nameFault? kind name with _ | fault
  · rcases place with _ | _
    · exact h.openNode kind name value
    · by_cases hp : a.path = []
      · obtain ⟨n, hn⟩ := h.grown.exists_node h.node
        have hlevel : k.level = 0 := by rw [h.level, hp]; rfl
        simp only [hp, hn, hlevel, Option.bind_eq_bind, Option.bind_some, if_true]
        rcases n.links.parent with _ | owner <;> rfl
      · obtain ⟨n, p, hn, hparent, hclose⟩ := h.close hbase hp
        obtain ⟨m, path, hpath⟩ := List.exists_cons_of_ne_nil hp
        have hlevel : k.level ≠ 0 := by rw [h.level, hpath]; simp
        obtain ⟨k', hk', h'⟩ := hclose.openNode kind name value
        simp only [hpath, hn, hparent, if_neg hlevel, Option.bind_eq_bind, Option.bind_some]
        refine ⟨k', ?_, h'⟩
        rw [← hk', Nat.sub_add_cancel (Nat.one_le_iff_ne_zero.2 hlevel)]
        rfl
  · rfl

theorem step_document (h : k.Follows c d base parent a) {n : Node} {front back : Forest Node}
    {above : Spot} (hspot : base.spot = .under n front back above) (hid : n.id = parent)
    (place : Place) (name value : String) :
    Led c d base parent
      (a.step (n.label.kind == .document) (.node place .document name value))
      (k.step parent (.node place .document name value)) := by
  obtain ⟨m, hm, hlabel⟩ := h.label_parent hspot
  rw [hid] at hm
  simp only [Assembly.step, Cursor.step, if_true, h.first, Bool.not_not]
  by_cases hfirst : a.started = true ∨ place ≠ .child
  · rw [if_pos hfirst, if_pos hfirst]
    rfl
  · rw [if_neg hfirst, if_neg hfirst]
    simp only [hm, hlabel, Option.bind_eq_bind, Option.bind_some]
    by_cases hkind : n.label.kind = .document
    · simp only [hkind, beq_self_eq_true, Bool.not_true, Bool.false_eq_true, if_false, ne_eq,
        not_true_eq_false]
      rcases nameFault? .document name with _ | fault
      · exact ⟨_, rfl, h.document⟩
      · rfl
    · simp only [beq_eq_false_iff_ne.2 hkind, Bool.not_false, if_true, ne_eq, hkind,
        not_false_eq_true]
      rfl

theorem step_attr (h : k.Follows c d base parent a) (below : Bool) (kind : NodeKind)
    (name value : String) :
    Led c d base parent (a.step below (.attr kind name value))
      (k.step parent (.attr kind name value)) := by
  simp only [Assembly.step, Cursor.step]
  by_cases hp : a.path = []
  · have hlevel : k.level = 0 := by rw [h.level, hp]; rfl
    simp only [hp, hlevel, if_true]
    rfl
  · obtain ⟨n, path, hpath⟩ := List.exists_cons_of_ne_nil hp
    have hlevel : k.level ≠ 0 := by rw [h.level, hpath]; simp
    simp only [hpath, if_neg hlevel]
    by_cases hname : name = ""
    · rw [if_pos hname, if_pos hname]
      rfl
    · obtain ⟨c', hc', h'⟩ := h.attr hpath name value
      rw [if_neg hname, if_neg hname, hc']
      exact ⟨_, rfl, h'⟩

/-- The cursor never finds itself at a node without a parent when it has to go up. -/
theorem step_close (h : k.Follows c d base parent a) (hbase : base.spot.parent? = some parent)
    (below : Bool) (kind : NodeKind) :
    Led c d base parent (a.step below (.close kind)) (k.step parent (.close kind)) := by
  by_cases hp : a.path = []
  · have hlevel : k.level = 0 := by rw [h.level, hp]; rfl
    simp only [Assembly.step, Cursor.step, hp, hlevel, h.limit, if_true]
    rcases hd : a.isDocument
    · rfl
    · refine ⟨k, ?_, h⟩
      rw [hd]
      rfl
  · have hlevel : k.level ≠ 0 := by rw [h.level, ne_eq, List.length_eq_zero_iff]; exact hp
    obtain ⟨n, p, hn, hparent, hclose⟩ := h.close hbase hp
    have htop : k.top.getD parent =
        if a.close.isDocument then parent else ⟨base.slots.next⟩ := by
      rw [h.top, if_pos (h.started hp), Assembly.isDocument_close]
      rfl
    have hends : k.level - 1 ≤ k.limit ↔ a.close.isComplete = true := by
      rw [Assembly.isComplete_iff, ← hclose.level, ← hclose.limit]
    rw [Assembly.step_close hp]
    simp only [Cursor.step, if_neg hlevel, hn, hparent, Option.bind_eq_bind, Option.bind_some,
      htop]
    by_cases hc : a.close.isComplete = true
    · rw [if_pos hc, if_pos (hends.2 hc)]
      exact ⟨_, rfl, hclose⟩
    · rw [if_neg hc, if_neg (hends.not.2 hc)]
      exact ⟨_, rfl, hclose⟩

section Read

variable {n : Node} {front back : Forest Node} {above : Spot}
  (hspot : base.spot = .under n front back above) (hid : n.id = parent)

include hspot hid

/-- A unit moves the cursor as it moves on what is put together. -/
theorem step (h : k.Follows c d base parent a) (u : WireUnit) :
    Led c d base parent (a.step (n.label.kind == .document) u) (k.step parent u) := by
  have hbase : base.spot.parent? = some parent := by rw [hspot, ← hid]; rfl
  rcases u with ⟨place, kind, name, value⟩ | ⟨kind, name, value⟩ | kind
  · by_cases hk : kind = .document
    · subst hk
      exact h.step_document hspot hid place name value
    · exact h.step_node hbase _ hk place name value
  · exact h.step_attr _ kind name value
  · exact h.step_close hbase _ kind

/-- So do all units to the end of the message, or to where it cannot be read any further. -/
theorem read {σ : Type} [ByteSource σ] {k : Cursor} {a : Assembly}
    (h : k.Follows c d base parent a) (s : σ) :
    let m := Wire.assemble (n.label.kind == .document) a s
    ∃ k', k.read parent s = some ((k'.document, match m.1.2 with
        | some e => .error (.fault e)
        | none => .ok (if m.1.1.isDocument then parent else ⟨base.slots.next⟩)), m.2) ∧
      Follows c d base parent k' m.1.1 := by
  rcases hu : Wire.readUnit s with ⟨e | u, s'⟩
  · rw [Wire.assemble_of_error hu, Cursor.read_of_error hu]
    exact ⟨k, rfl, h⟩
  · have := Wire.takes_readUnit _ _ _ hu
    rw [Wire.assemble_of_readUnit hu, Cursor.read_of_readUnit hu]
    have hstep := h.step hspot hid u
    rcases ha : a.step (n.label.kind == .document) u with cause | b | b <;> rw [ha] at hstep
    · rw [show k.step parent u = halt cause from hstep]
      exact ⟨k, rfl, h⟩
    -- what follows the unit is read from fewer bytes
    · obtain ⟨k', hk', h'⟩ := hstep
      rw [hk']
      exact h'.read s'
    · obtain ⟨k', hk', h'⟩ := hstep
      rw [hk']
      exact ⟨k', rfl, h'⟩
termination_by ByteSource.size s

end Read

end Cursor.Follows

end Treegram
