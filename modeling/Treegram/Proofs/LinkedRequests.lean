import Treegram.Proofs.ReachedDocuments
import Treegram.Request.Linked

/-!
# Requests in step with their links

Each step on a request looks at names first and at the document after, so along links it is taken
exactly if it is taken by the request itself, and is refused for the same cause, before anything is
touched (`Settles`). What is taken is a label that changes or things that are added behind others,
which is told by what becomes of each node (`Relabels`, `Gains`). A list of arguments is taken up to
the first that is refused (`addArguments_spec`).
-/

namespace Treegram

/-! ## What is told of a node that is added to -/

/-- Whether the label of a node was changed by `g`. -/
structure Relabels (v v' : NodeId → Option NodeView) (id : NodeId) (g : Label → Label) : Prop where
  self : ∃ n, v id = some n ∧ v' id = some { n with label := g n.label }
  other : ∀ k ≠ id, v' k = v k

/-- Whether attributes, and elements without any, were added to the node `id` behind those it had;
`new` are the elements, in order. -/
structure Gains (v v' : NodeId → Option NodeView) (id : NodeId) (attributes : List Attribute)
    (elements : List (String × String)) (new : List NodeId) : Prop where
  self : ∃ n, v id = some n ∧ v' id = some { n with
    label.attributes := n.label.attributes ++ attributes, children := n.children ++ new }
  nodup : new.Nodup
  fresh : ∀ k ∈ new, v k = none
  told : new.map v' = elements.map fun e => some ⟨.element e.1 e.2, some id, []⟩
  other : ∀ k, k ∉ new → k ≠ id → v' k = v k

theorem Relabels.ne_of_eq_none {v v' : NodeId → Option NodeView} {id k : NodeId}
    {g : Label → Label} (h : Relabels v v' id g) (hk : v k = none) : k ≠ id := by
  rintro rfl
  obtain ⟨n, hn, -⟩ := h.self
  simp [hk] at hn

theorem Appends.gains {v v' : NodeId → Option NodeView} {parent id : NodeId} {name value : String}
    (h : Appends v v' parent id (.element name value)) :
    Gains v v' parent [] [(name, value)] [id] where
  self := by
    obtain ⟨p, hp, hp'⟩ := h.above
    exact ⟨p, hp, by rw [hp', List.append_nil]⟩
  nodup := List.nodup_singleton id
  fresh := List.forall_mem_singleton.2 h.fresh
  told := congrArg (fun n => [n]) h.new
  other k hk := h.other k (List.ne_of_not_mem_cons hk)

theorem Relabels.gains {v v' : NodeId → Option NodeView} {id : NodeId} {name value : String}
    (h : Relabels v v' id fun l => l.addAttribute name value) :
    Gains v v' id [⟨name, value⟩] [] [] where
  self := by
    obtain ⟨n, hn, hn'⟩ := h.self
    exact ⟨n, hn, by rw [hn', List.append_nil]; rfl⟩
  nodup := List.nodup_nil
  fresh := by simp
  told := rfl
  other k _ hk := h.other k hk

namespace Gains

variable {v v' v'' : NodeId → Option NodeView} {id k : NodeId} {as as' : List Attribute}
  {es es' : List (String × String)} {new new' : List NodeId}

theorem refl {n : NodeView} (h : v id = some n) : Gains v v id [] [] [] where
  self := ⟨n, h, by rw [h, List.append_nil, List.append_nil]⟩
  nodup := List.nodup_nil
  fresh := by simp
  told := rfl
  other _ _ _ := rfl

/-- The new elements are there. -/
theorem exists_element (h : Gains v v' id as es new) (hk : k ∈ new) :
    ∃ e ∈ es, v' k = some ⟨.element e.1 e.2, some id, []⟩ := by
  have hmem := List.mem_map_of_mem hk (f := v')
  rw [h.told] at hmem
  obtain ⟨e, he, hv⟩ := List.mem_map.1 hmem
  exact ⟨e, he, hv.symm⟩

theorem ne_of_eq_none (h : Gains v v' id as es new) (hk : v k = none) : k ≠ id := by
  rintro rfl
  obtain ⟨n, hn, -⟩ := h.self
  simp [hk] at hn

theorem ne_of_mem (h : Gains v v' id as es new) (hk : k ∈ new) : k ≠ id :=
  h.ne_of_eq_none (h.fresh k hk)

theorem not_mem (h : Gains v v' id as es new) (h' : Gains v' v'' id as' es' new') (hk : k ∈ new) :
    k ∉ new' := by
  intro hk'
  obtain ⟨e, -, he⟩ := h.exists_element hk
  rw [h'.fresh k hk'] at he
  simp at he

theorem trans (h : Gains v v' id as es new) (h' : Gains v' v'' id as' es' new') :
    Gains v v'' id (as ++ as') (es ++ es') (new ++ new') where
  self := by
    obtain ⟨n, hn, hn'⟩ := h.self
    obtain ⟨m, hm, hm'⟩ := h'.self
    obtain rfl := Option.some.inj (hn'.symm.trans hm)
    exact ⟨n, hn, by rw [hm', List.append_assoc, List.append_assoc]⟩
  nodup := List.nodup_append'.2 ⟨h.nodup, h'.nodup, fun _ hk hk' => h.not_mem h' hk hk'⟩
  fresh := by
    rw [List.forall_mem_append]
    refine ⟨h.fresh, fun k hk => ?_⟩
    rw [← h.other k (fun hmem => h.not_mem h' hmem hk) (h'.ne_of_mem hk)]
    exact h'.fresh k hk
  told := by
    rw [List.map_append, List.map_append, ← h.told, ← h'.told]
    congr 1
    exact List.map_congr_left fun k hk => h'.other k (h.not_mem h' hk) (h.ne_of_mem hk)
  other k hk hid := by
    rw [List.mem_append, not_or] at hk
    rw [h'.other k hk.2 hid, h.other k hk.1 hid]

end Gains

/-! ## Steps on documents -/

theorem Spot.relabels {s : Spot} {n : Node} {front kids back : Forest Node} {g : Label → Label}
    (h : (s.fill (front ++ .cons n kids back)).ids.Nodup)
    (h' : (s.fill (front ++ .cons ⟨n.id, g n.label⟩ kids back)).ids.Nodup) :
    Relabels (s.fill (front ++ .cons n kids back)).view
      (s.fill (front ++ .cons ⟨n.id, g n.label⟩ kids back)).view n.id g := by
  refine ⟨⟨_, view?_fill_node h, view?_fill_node h'⟩, fun k hk => ?_⟩
  have htops : (front ++ .cons ⟨n.id, g n.label⟩ kids back).tops =
      (front ++ .cons n kids back).tops := by
    rw [Forest.tops_append, Forest.tops_append, Forest.tops, Forest.tops]
  rw [Forest.view, Forest.view, view?_fill h, view?_fill h', htops, Forest.view?_append,
    Forest.view?_append, Forest.view?, Forest.view?, if_neg (Ne.symm hk), if_neg (Ne.symm hk)]

namespace Reached

variable {c : LinkedDocument} {d : Document} {id : NodeId}

theorem appendElement (h : Reached c d) (hp : d.contains id = true) (name value : String) :
    ∃ new c' d', c.appendChild id (.element name value) = some (new, c') ∧
      d.appendChild id (.element name value) = (.ok new, d') ∧ Reached c' d' ∧ d'.root = d.root ∧
      Gains d.view d'.view id [] [(name, value)] [new] := by
  obtain ⟨new, c', d', hc, hd, -, happends, -⟩ := h.holds.appends hp (.element name value)
  obtain ⟨-, hroot, -⟩ := Document.appendChild_of_contains hp h.holds.strays (.element name value)
  have haccepts : d.accepts (.appendChild id .element name value) = true := by
    simp [Document.accepts, Edit.target, Edit.needsParent, hp]
  have hedit : c.edit (.appendChild id .element name value) = some c' := by
    show (c.appendChild id (.element name value)).map Prod.snd = some c'
    rw [hc]
    rfl
  have hd' : d.edit (.appendChild id .element name value) = d' := congrArg Prod.snd hd
  rw [hd] at hroot
  exact ⟨new, c', d', hc, hd, hd' ▸ h.edit haccepts hedit, hroot, happends.gains⟩

/-- An edit that changes only the label of a live node. -/
theorem relabel (h : Reached c d) (hid : d.contains id = true) {e : Edit} {g : Label → Label}
    (htarget : e.target = id) (hplace : e.needsParent = false) (hc : c.edit e = c.relabel id g)
    (hd : d.edit e = (d.relabel id g).toOption.getD d) :
    ∃ c' d', c.relabel id g = some c' ∧ d.relabel id g = .ok d' ∧ Reached c' d' ∧
      d'.root = d.root ∧ Relabels d.view d'.view id g := by
  obtain ⟨s, front, n, kids, back, rfl, hf⟩ := Spot.exists_fill ((h.holds.contains id).1 hid)
  obtain ⟨c', d', hc', hd', h'⟩ := h.holds.relabel ((h.holds.contains n.id).1 hid) g
  have hnodup := h.holds.nodup
  have hnodup' := h'.nodup
  have hf' := (Document.forest_relabel hd').1
  rw [hf] at hnodup
  rw [hf, Spot.relabel_fill_node hnodup] at hf'
  rw [hf'] at hnodup'
  have haccepts : d.accepts e = true := by simp [Document.accepts, htarget, hplace, hid]
  have hedit : d.edit e = d' := by
    rw [hd, hd']
    rfl
  refine ⟨c', d', hc', hd', hedit ▸ h.edit haccepts (hc.trans hc'), ?_, ?_⟩
  · rw [Document.relabel, if_pos hid] at hd'
    rw [← Except.ok.inj hd']
    unfold Document.root Tree.relabel
    dsimp only
    split <;> rfl
  · rw [h.holds.view, h'.view, hf, hf']
    exact Spot.relabels hnodup hnodup'

end Reached

/-! ## Work that is taken or refused -/

namespace Drafting

variable {α β : Type} {x : Drafting α} {f : α → Drafting β} {c c' : LinkedRequest}

theorem bind_of_ok {a : α} (h : x c = some (.ok a, c')) : (x >>= f) c = f a c' := by
  show (x c).bind _ = _
  rw [h]
  rfl

theorem bind_of_error {e : Fault} (h : x c = some (.error e, c')) :
    (x >>= f) c = some (.error e, c') := by
  show (x c).bind _ = _
  rw [h]
  rfl

end Drafting

/-- Whether a request along links is the given one. -/
structure LinkedRequest.Holds (c : LinkedRequest) (r : Request) : Prop where
  reached : Reached c.document r.document
  request : c.request = r.request
  command : c.command = r.command
  kind : c.kind = r.kind

namespace Request

/-! ## What may be added -/

/-- Whether an attribute of this name may be added to a node. -/
def Admits (r : Request) (node : NodeId) (name : String) : Prop :=
  name ≠ "" ∧ r.closedTo? node = none ∧ ¬(node = r.command ∧ name = commandName ∧ r.kind.isSome)

/-- Whether an argument with this key is refused. -/
def rejects (r : Request) (key : String) : Bool :=
  key == "" || key == "@" || key == "@name" && r.kind.isSome || r.kind == some .parse

/-- The attributes among arguments, each named by what follows the marker of its key. -/
def attributesOf (args : List (String × String)) : List Attribute :=
  args.filterMap fun arg => (stripMarker? arg.1).map fun name => ⟨name, arg.2⟩

/-- The elements among arguments: those with no marker. -/
def elementsOf (args : List (String × String)) : List (String × String) :=
  args.filter fun arg => (stripMarker? arg.1).isNone

/-- One marker is stripped, if there is one. -/
theorem stripMarker?_eq_some {key name : String} :
    stripMarker? key = some name ↔ key = "@" ++ name := by
  rw [← String.toList_inj, String.toList_append]
  show _ ↔ key.toList = '@' :: name.toList
  unfold stripMarker? marker
  rcases key.toList with _ | ⟨c, cs⟩
  · simp
  · simp only [List.cons.injEq]
    split
    · rename_i h
      rw [h, Option.some.injEq, ← String.toList_inj, String.toList_ofList]
      simp
    · rename_i h
      simp [h]

variable {r : Request} {c : LinkedRequest} {node : NodeId}

theorem closedTo?_command : r.closedTo? r.command = none ↔ r.kind ≠ some .parse := by
  simp [closedTo?]

/-- An argument behind a marker is refused exactly if the attribute is. -/
theorem rejects_of_marker {key name : String} (h : stripMarker? key = some name) :
    r.rejects key = false ↔ r.Admits r.command name := by
  have hkey : key.toList = '@' :: name.toList := by
    rw [stripMarker?_eq_some.1 h, String.toList_append]
    rfl
  have hempty : key ≠ "" := by
    rw [ne_eq, ← String.toList_inj, hkey]
    simp
  have hmarker : key = "@" ↔ name = "" := by
    rw [← String.toList_inj, hkey, ← String.toList_inj]
    simp
  have hname : key = "@name" ↔ name = commandName := by
    rw [← String.toList_inj, hkey, ← String.toList_inj]
    simp [commandName]
  simp only [rejects, Admits, closedTo?_command, Bool.or_eq_false_iff, Bool.and_eq_false_iff,
    beq_eq_false_iff_ne, ne_eq, hempty, hmarker, hname, true_and, not_false_eq_true]
  simp
  tauto

theorem rejects_of_no_marker {key : String} (h : stripMarker? key = none) :
    r.rejects key = false ↔ key ≠ "" ∧ r.closedTo? r.command = none := by
  have hmarked : ∀ name : String, key ≠ "@" ++ name := by
    intro name hkey
    rw [stripMarker?_eq_some.2 hkey] at h
    simp at h
  have hmarker : key ≠ "@" := hmarked ""
  have hname : key ≠ "@name" := hmarked "name"
  simp only [rejects, closedTo?_command, Bool.or_eq_false_iff, Bool.and_eq_false_iff,
    beq_eq_false_iff_ne, hmarker, hname, ne_eq,
    not_false_eq_true, true_or, and_true]

/-- An argument is an attribute of the command element or an element below it. -/
theorem addArgument_eq (r : Request) (key value : String) : r.addArgument key value =
    match stripMarker? key with
    | some name => r.addAttribute r.command name value
    | none => (r.addElement r.command key value).map Prod.fst := by
  unfold addArgument stripMarker?
  rcases hkey : key.toList with _ | ⟨c, cs⟩
  · have hempty : key = "" := String.toList_inj.1 hkey
    simp only [addElement, hempty, if_true]
    rfl
  · dsimp only
    split <;> rfl

/-- What comes of work on a request that is done exactly if `P`: along links it is done as for the
request itself, and makes of the document one of which `Q` holds, or it is refused there as here,
and all stays as it was. -/
inductive Settles {α : Type} (c : LinkedRequest) (r : Request) (P : Prop)
    (Q : Document → α → Prop) (x : Drafting α) (y : Except Fault (Request × α)) : Prop where
  | taken (c' : LinkedRequest) (d : Document) (a : α) : P → x c = some (.ok a, c') →
    y = .ok ({ r with document := d }, a) → c'.Holds { r with document := d } →
    d.root = r.document.root → Q d a → Settles c r P Q x y
  | refused (cause : Refusal) : ¬P → x c = some (.error (.refused cause), c) →
    y = .error (.refused cause) → Settles c r P Q x y

namespace Settles

variable {α β : Type} {P P' : Prop} {Q Q' : Document → α → Prop} {x x' : Drafting α}
  {y y' : Except Fault (Request × α)}

theorem congr (h : Settles c r P Q x y) (hx : x' c = x c) (hy : y' = y) (hP : P' ↔ P)
    (hQ : ∀ d a, Q d a → Q' d a) : Settles c r P' Q' x' y' := by
  subst hy
  cases h with
  | taken c' d a hp hx' hy hc hroot hq =>
    exact .taken c' d a (hP.2 hp) (hx.trans hx') hy hc hroot (hQ d a hq)
  | refused cause hp hx' hy => exact .refused cause (hP.not.2 hp) (hx.trans hx') hy

theorem map (h : Settles c r P Q x y) (f : α → β) (Q' : Document → β → Prop)
    (hQ : ∀ d a, Q d a → Q' d (f a)) :
    Settles c r P Q' (x >>= fun a => pure (f a)) (y.map fun p => (p.1, f p.2)) := by
  cases h with
  | taken c' d a hp hx hy hc hroot hq =>
    exact .taken c' d (f a) hp (Drafting.bind_of_ok hx) (by rw [hy]; rfl) hc hroot (hQ d a hq)
  | refused cause hp hx hy =>
    exact .refused cause hp (Drafting.bind_of_error hx) (by rw [hy]; rfl)

end Settles

section

variable (h : c.Holds r)

include h

theorem checkTarget_eq (node : NodeId) : Drafting.checkTarget node c =
    some ((r.closedTo? node).elim (.ok ()) fun cause => .error (.refused cause), c) := by
  unfold closedTo?
  rw [← h.command, ← h.kind]
  show (if node = c.command ∧ c.kind = some .parse then Drafting.refuse .parseArgument
    else pure ()) c = _
  split <;> rfl

theorem settles_addElement (hp : r.document.contains node = true) (name value : String) :
    Settles c r (name ≠ "" ∧ r.closedTo? node = none)
      (fun d id => Gains r.document.view d.view node [] [(name, value)] [id])
      (Drafting.addElement node name value) (r.addElement node name value) := by
  unfold Drafting.addElement Request.addElement
  by_cases hname : name = ""
  · rw [if_pos hname, if_pos hname]
    exact .refused .namelessElement (fun h => h.1 hname) rfl rfl
  · rw [if_neg hname, if_neg hname]
    have hcheck := checkTarget_eq h node
    rcases hclosed : r.closedTo? node with _ | cause <;> rw [hclosed] at hcheck
    · obtain ⟨new, d, d', hd, hd', hreached, hroot, hgains⟩ :=
        h.reached.appendElement hp name value
      refine .taken { c with document := d } d' new ⟨hname, rfl⟩
        ((Drafting.bind_of_ok hcheck).trans ?_) (by rw [hd'])
        ⟨hreached, h.request, h.command, h.kind⟩ hroot hgains
      show (c.document.appendChild node (.element name value)).bind _ = _
      rw [hd]
      rfl
    · exact .refused cause (fun h => by simp at h) (Drafting.bind_of_error hcheck) rfl

theorem exists_relabel (hn : r.document.contains node = true) {e : Edit} {g : Label → Label}
    (htarget : e.target = node) (hplace : e.needsParent = false)
    (hc : c.document.edit e = c.document.relabel node g)
    (hd : r.document.edit e = (r.document.relabel node g).toOption.getD r.document) :
    ∃ c' d, Drafting.relabel node g c = some (.ok (), c') ∧ r.document.relabel node g = .ok d ∧
      c'.Holds { r with document := d } ∧ d.root = r.document.root ∧
      Relabels r.document.view d.view node g := by
  obtain ⟨d, d', hd, hd', hreached, hroot, hrelabels⟩ :=
    h.reached.relabel hn htarget hplace hc hd
  refine ⟨{ c with document := d }, d', ?_, hd', ⟨hreached, h.request, h.command, h.kind⟩, hroot,
    hrelabels⟩
  show (c.document.relabel node g).bind _ = _
  rw [hd]
  rfl

theorem settles_addAttribute (hn : r.document.contains node = true) (name value : String) :
    Settles c r (r.Admits node name)
      (fun d _ => Gains r.document.view d.view node [⟨name, value⟩] [] [])
      (Drafting.addAttribute node name value)
      ((r.addAttribute node name value).map fun r' => (r', ())) := by
  unfold Drafting.addAttribute Request.addAttribute
  by_cases hname : name = ""
  · rw [if_pos hname, if_pos hname]
    exact .refused .namelessAttribute (fun h => h.1 hname) rfl rfl
  · rw [if_neg hname, if_neg hname]
    have hcheck := checkTarget_eq h node
    rcases hclosed : r.closedTo? node with _ | cause <;> rw [hclosed] at hcheck
    · have hreserved : (node = c.command ∧ name = commandName ∧ c.kind.isSome) ↔
          (node = r.command ∧ name = commandName ∧ r.kind.isSome) := by rw [h.command, h.kind]
      by_cases hr : node = r.command ∧ name = commandName ∧ r.kind.isSome
      · refine .refused .reservedName (fun h => h.2.2 hr)
          ((Drafting.bind_of_ok hcheck).trans ?_) (by rw [if_pos hr]; rfl)
        show (if node = c.command ∧ name = commandName ∧ c.kind.isSome then _ else _ :
          Drafting Unit) c = _
        rw [if_pos (hreserved.2 hr)]
        rfl
      · obtain ⟨c', d, hc', hd, hholds, hroot, hrelabels⟩ :=
          exists_relabel h hn (e := .appendAttribute node name value) rfl rfl rfl rfl
        refine .taken c' d () ⟨hname, hclosed, hr⟩ ((Drafting.bind_of_ok hcheck).trans ?_) ?_
          hholds hroot hrelabels.gains
        · show (if node = c.command ∧ name = commandName ∧ c.kind.isSome then _ else _ :
            Drafting Unit) c = _
          rw [if_neg (hreserved.not.2 hr)]
          exact hc'
        · simp only [if_neg hr, Document.appendAttribute, hd]
          rfl
    · exact .refused cause (fun h => by simp [Admits, hclosed] at h)
        (Drafting.bind_of_error hcheck) rfl

theorem settles_setText (hn : r.document.contains node = true) (value : String) :
    Settles c r True
      (fun d _ => Relabels r.document.view d.view node fun l => { l with value })
      (Drafting.setText node value) ((r.setText node value).map fun r' => (r', ())) := by
  obtain ⟨c', d, hc', hd, hholds, hroot, hrelabels⟩ :=
    exists_relabel h hn (e := .setValue node value) rfl rfl rfl rfl
  refine .taken c' d () trivial hc' ?_ hholds hroot hrelabels
  simp only [Request.setText, Document.setValue, hd]
  rfl

theorem settles_addArgument (hn : r.document.contains r.command = true) (key value : String) :
    Settles c r (r.rejects key = false)
      (fun d _ => ∃ new, Gains r.document.view d.view r.command (attributesOf [(key, value)])
        (elementsOf [(key, value)]) new)
      (Drafting.addArgument key value) ((r.addArgument key value).map fun r' => (r', ())) := by
  have hdrafting : Drafting.addArgument key value c = (match stripMarker? key with
      | some name => Drafting.addAttribute r.command name value
      | none => do let _ ← Drafting.addElement r.command key value) c := by
    rw [← h.command]
    rfl
  rw [addArgument_eq]
  rcases hm : stripMarker? key with _ | name <;> simp only [hm] at hdrafting ⊢
  · refine ((settles_addElement h hn key value).map (fun _ => ())
      (fun d _ => ∃ new, Gains r.document.view d.view r.command [] [(key, value)] new)
      fun d id hd => ⟨[id], hd⟩).congr hdrafting ?_ (rejects_of_no_marker hm) fun d _ hd => ?_
    · rcases r.addElement r.command key value with _ | _ <;> rfl
    · simpa [attributesOf, elementsOf, hm] using hd
  · refine (settles_addAttribute h hn name value).congr hdrafting rfl (rejects_of_marker hm)
      fun d _ hd => ⟨[], ?_⟩
    simpa [attributesOf, elementsOf, hm] using hd

end

/-- What comes of a list of arguments of which those in `front` stand before the first that is
refused, if any: these are added, and the work ends there. -/
structure AddsUpTo (c c' : LinkedRequest) (r : Request) (d : Document)
    (args front : List (String × String)) (new : List NodeId) : Prop where
  holds : c'.Holds { r with document := d }
  root : d.root = r.document.root
  gains : Gains r.document.view d.view r.command (attributesOf front) (elementsOf front) new
  added : Drafting.addArguments front c = some (.ok (), c')
  result : (front = args ∧ r.addArguments args = ({ r with document := d }, none)) ∨
    ∃ arg back cause, args = front ++ arg :: back ∧ r.rejects arg.1 = true ∧
      Drafting.addArgument arg.1 arg.2 c' = some (.error (.refused cause), c') ∧
      Drafting.addArguments args c = some (.error (.refused cause), c') ∧
      r.addArguments args = ({ r with document := d }, some (.refused cause))

theorem contains_of_gains {c' : LinkedRequest} {d : Document} {as : List Attribute}
    {es : List (String × String)} {new : List NodeId} (h : c'.Holds { r with document := d })
    (hg : Gains r.document.view d.view node as es new) : d.contains node = true := by
  obtain ⟨n, -, hn⟩ := hg.self
  rw [h.reached.holds.shows.contains, hn]
  rfl

theorem addArguments_cons (r : Request) (key value : String) (args : List (String × String)) :
    r.addArguments ((key, value) :: args) =
      match (r.addArgument key value).map fun r' => (r', ()) with
      | .ok (r', _) => r'.addArguments args
      | .error e => (r, some e) := by
  rw [addArguments]
  cases r.addArgument key value <;> rfl

namespace AddsUpTo

variable {c₁ c' : LinkedRequest} {d₁ d : Document} {key value : String}
  {args front : List (String × String)} {new₁ new : List NodeId}

/-- Nothing is added, as there are no arguments or the first is refused. -/
theorem start (h : c.Holds r) (hn : r.document.contains r.command = true)
    (hresult : ([] = args ∧ r.addArguments args = (r, none)) ∨
      ∃ arg back cause, args = arg :: back ∧ r.rejects arg.1 = true ∧
        Drafting.addArgument arg.1 arg.2 c = some (.error (.refused cause), c) ∧
        Drafting.addArguments args c = some (.error (.refused cause), c) ∧
        r.addArguments args = (r, some (.refused cause))) :
    AddsUpTo c c r r.document args [] [] := by
  rw [h.reached.holds.shows.contains, Option.isSome_iff_exists] at hn
  obtain ⟨n, hn⟩ := hn
  exact ⟨h, rfl, .refl hn, rfl, hresult⟩

theorem cons (hx : Drafting.addArgument key value c = some (.ok (), c₁))
    (hy : ((r.addArgument key value).map fun r' => (r', ())) = .ok ({ r with document := d₁ }, ()))
    (hroot : d₁.root = r.document.root)
    (hgains : Gains r.document.view d₁.view r.command (attributesOf [(key, value)])
      (elementsOf [(key, value)]) new₁)
    (h : AddsUpTo c₁ c' { r with document := d₁ } d args front new) :
    AddsUpTo c c' r d ((key, value) :: args) ((key, value) :: front) (new₁ ++ new) := by
  have hcons : ∀ args, Drafting.addArguments ((key, value) :: args) c =
      Drafting.addArguments args c₁ := fun args => Drafting.bind_of_ok hx
  refine ⟨h.holds, h.root.trans hroot, ?_, ?_, ?_⟩
  · rw [← List.singleton_append, attributesOf, elementsOf, List.filterMap_append,
      List.filter_append]
    exact hgains.trans h.gains
  · rw [hcons]
    exact h.added
  · rw [addArguments_cons, hy]
    rcases h.result with
      ⟨hfront, hmodel⟩ | ⟨arg, back, cause, hargs, hrejects, hlast, hall, hmodel⟩
    · exact .inl ⟨congrArg _ hfront, hmodel⟩
    · exact .inr ⟨arg, back, cause, congrArg _ hargs, hrejects, hlast, (hcons args).trans hall,
        hmodel⟩

end AddsUpTo

theorem addArguments_spec : ∀ (args : List (String × String)) {c : LinkedRequest} {r : Request},
    c.Holds r → r.document.contains r.command = true → ∃ c' d new,
      AddsUpTo c c' r d args (args.takeWhile fun arg => !r.rejects arg.1) new
  | [], c, r, h, hn => ⟨c, r.document, [], .start h hn (.inl ⟨rfl, rfl⟩)⟩
  | (key, value) :: args, c, r, h, hn => by
    rw [List.takeWhile_cons]
    cases settles_addArgument h hn key value with
    | taken c₁ d₁ _ hp hx hy hholds hroot hq =>
      obtain ⟨new₁, hgains⟩ := hq
      obtain ⟨c', d, new, hrest⟩ := addArguments_spec args hholds (contains_of_gains hholds hgains)
      rw [hp, Bool.not_false, if_pos rfl]
      exact ⟨c', d, new₁ ++ new, .cons hx hy hroot hgains hrest⟩
    | refused cause hp hx hy =>
      rw [Bool.not_eq_false] at hp
      rw [hp, Bool.not_true, if_neg Bool.false_ne_true]
      refine ⟨c, r.document, [], .start h hn (.inr ⟨(key, value), args, cause, rfl, hp, hx,
        Drafting.bind_of_error hx, ?_⟩)⟩
      rw [addArguments_cons, hy]

end Request

end Treegram
