import Mathlib.Data.List.TakeWhile
import Treegram.Proofs.LinkedRequests

/-!
# Requests that are made up step by step

Whatever the steps, and whether they are taken or refused, a request only gets more of what it
takes: the nodes that it has keep what they have and get attributes and children behind these, where
it lets them, and the new ones are elements with names (`Permits`). Each step adds up to the ones
before (`Permits.trans`), and along links the same is done (`Tracks.run`), so what a request lets
through at one step is all there is to tell of any number of them.
-/

namespace Treegram

/-- Whether a label is one of an element that is named, as are its attributes. -/
def Label.IsProper (l : Label) : Prop :=
  l.kind = .element ∧ l.name ≠ "" ∧ ∀ a ∈ l.attributes, a.name ≠ ""

/-- Whether the links tell what a request does. -/
structure LinkedRequest.Shows (c : LinkedRequest) (r : Request) : Prop where
  document : c.document.Shows r.document
  request : c.request = r.request
  command : c.command = r.command
  kind : c.kind = r.kind

theorem LinkedRequest.Holds.shows {c : LinkedRequest} {r : Request} (h : c.Holds r) : c.Shows r :=
  ⟨h.reached.holds.shows, h.request, h.command, h.kind⟩

namespace Request

/-! ## What becomes of the document -/

/-- What becomes of a node of a request. -/
structure Enriches (r : Request) (id : NodeId) (n n' : NodeView) : Prop where
  parent : n'.parent = n.parent
  kind : n'.label.kind = n.label.kind
  name : n'.label.name = n.label.name
  attributes : ∃ as, n'.label.attributes = n.label.attributes ++ as ∧ ∀ a ∈ as, r.Admits id a.name
  children : ∃ new, n'.children = n.children ++ new ∧ (new ≠ [] → r.closedTo? id = none)

/-- Whether a document is one that a request lets become of its own. -/
structure Permits (r : Request) (d : Document) : Prop where
  root : d.root = r.document.root
  top : d.view r.document.root = r.document.view r.document.root
  kept : ∀ id n, r.document.view id = some n → ∃ n', d.view id = some n' ∧ r.Enriches id n n'
  new : ∀ id n, r.document.view id = none → d.view id = some n → n.label.IsProper

variable {r : Request} {c c' : LinkedRequest} {d d' : Document} {id node : NodeId}

namespace Enriches

variable {n n' n'' : NodeView}

theorem refl (r : Request) (id : NodeId) (n : NodeView) : r.Enriches id n n where
  parent := rfl
  kind := rfl
  name := rfl
  attributes := ⟨[], (List.append_nil _).symm, by simp⟩
  children := ⟨[], (List.append_nil _).symm, by simp⟩

theorem trans (h : r.Enriches id n n') (h' : r.Enriches id n' n'') : r.Enriches id n n'' where
  parent := h'.parent.trans h.parent
  kind := h'.kind.trans h.kind
  name := h'.name.trans h.name
  attributes := by
    obtain ⟨as, has, hadmits⟩ := h.attributes
    obtain ⟨as', has', hadmits'⟩ := h'.attributes
    exact ⟨as ++ as', by rw [has', has, List.append_assoc],
      List.forall_mem_append.2 ⟨hadmits, hadmits'⟩⟩
  children := by
    obtain ⟨new, hnew, hopen⟩ := h.children
    obtain ⟨new', hnew', hopen'⟩ := h'.children
    refine ⟨new ++ new', by rw [hnew', hnew, List.append_assoc], fun hne => ?_⟩
    rw [ne_eq, List.append_eq_nil_iff, not_and_or] at hne
    exact hne.elim hopen hopen'

theorem isProper (h : r.Enriches id n n') (hn : n.label.IsProper) : n'.label.IsProper := by
  obtain ⟨hkind, hname, hattributes⟩ := hn
  obtain ⟨as, has, hadmits⟩ := h.attributes
  refine ⟨h.kind.trans hkind, by rwa [h.name], ?_⟩
  rw [has, List.forall_mem_append]
  exact ⟨hattributes, fun a ha => (hadmits a ha).1⟩

end Enriches

namespace Permits

theorem refl (r : Request) : r.Permits r.document where
  root := rfl
  top := rfl
  kept id n hn := ⟨n, hn, .refl r id n⟩
  new id n hnone hn := by simp [hnone] at hn

/-- What a request lets through does not change as it is made up. -/
theorem trans (h : r.Permits d) (h' : ({ r with document := d } : Request).Permits d') :
    r.Permits d' where
  root := h'.root.trans h.root
  top := by
    rw [← h.top, ← h.root]
    exact h'.top
  kept id n hn := by
    obtain ⟨n₁, hn₁, hgrown⟩ := h.kept id n hn
    obtain ⟨n₂, hn₂, hgrown'⟩ := h'.kept id n₁ hn₁
    exact ⟨n₂, hn₂, hgrown.trans ⟨hgrown'.1, hgrown'.2, hgrown'.3, hgrown'.4, hgrown'.5⟩⟩
  new id n hnone hn := by
    rcases hv : d.view id with _ | n₁
    · exact h'.new id n hv hn
    · obtain ⟨n₂, hn₂, hgrown⟩ := h'.kept id n₁ hv
      obtain rfl := Option.some.inj (hn₂.symm.trans hn)
      exact hgrown.isProper (h.new id n₁ hnone hv)

section Steps

variable (hroot : d.root = r.document.root) (hnode : node ≠ r.document.root)

include hroot hnode

theorem of_text {value : String}
    (h : Relabels r.document.view d.view node fun l => { l with value }) : r.Permits d where
  root := hroot
  top := h.other _ hnode.symm
  kept id n hn := by
    by_cases hid : id = node
    · obtain ⟨m, hm, hm'⟩ := h.self
      rw [hid, hm, Option.some.injEq] at hn
      subst hid hn
      exact ⟨_, hm', rfl, rfl, rfl, ⟨[], (List.append_nil _).symm, by simp⟩, [],
        (List.append_nil _).symm, by simp⟩
    · exact ⟨n, (h.other id hid).trans hn, .refl r id n⟩
  new id n hnone hn := by
    rw [h.other id (h.ne_of_eq_none hnone), hnone] at hn
    simp at hn

variable (htop : (r.document.view r.document.root).isSome)

include htop

theorem of_gains {as : List Attribute} {es : List (String × String)} {new : List NodeId}
    (h : Gains r.document.view d.view node as es new) (has : ∀ a ∈ as, r.Admits node a.name)
    (hes : ∀ e ∈ es, e.1 ≠ "" ∧ r.closedTo? node = none) : r.Permits d where
  root := hroot
  top := by
    refine h.other _ (fun hmem => ?_) hnode.symm
    rw [h.fresh _ hmem] at htop
    simp at htop
  kept id n hn := by
    have hmem : id ∉ new := fun hmem => by simp [h.fresh id hmem] at hn
    by_cases hid : id = node
    · obtain ⟨m, hm, hm'⟩ := h.self
      rw [hid, hm, Option.some.injEq] at hn
      subst hid hn
      refine ⟨_, hm', rfl, rfl, rfl, ⟨as, rfl, has⟩, new, rfl, fun hne => ?_⟩
      obtain ⟨k, hk⟩ := List.exists_mem_of_ne_nil _ hne
      obtain ⟨e, he, -⟩ := h.exists_element hk
      exact (hes e he).2
    · exact ⟨n, (h.other id hmem hid).trans hn, .refl r id n⟩
  new id n hnone hn := by
    by_cases hmem : id ∈ new
    · obtain ⟨e, he, hv⟩ := h.exists_element hmem
      obtain rfl := Option.some.inj (hv.symm.trans hn)
      exact ⟨rfl, (hes e he).1, by simp [Label.element, Label.plain]⟩
    · rw [h.other id hmem (h.ne_of_eq_none hnone), hnone] at hn
      simp at hn

theorem of_arguments {args : List (String × String)} {new : List NodeId}
    (h : Gains r.document.view d.view node (attributesOf args) (elementsOf args) new)
    (hcommand : node = r.command) (hr : ∀ arg ∈ args, r.rejects arg.1 = false) : r.Permits d := by
  refine of_gains hroot hnode htop h (fun a ha => ?_) fun e he => ?_
  · obtain ⟨arg, harg, ha⟩ := List.mem_filterMap.1 ha
    obtain ⟨name, hname, rfl⟩ := Option.map_eq_some_iff.1 ha
    rw [hcommand]
    exact (rejects_of_marker hname).1 (hr arg harg)
  · obtain ⟨he, hnone⟩ := List.mem_filter.1 he
    rw [hcommand]
    exact (rejects_of_no_marker (Option.isNone_iff_eq_none.1 hnone)).1 (hr e he)

end Steps

end Permits

/-! ## Steps -/

theorem Draft.request_perform (s : Draft) (step : Step) :
    (s.perform step).request = (s.request.perform step).2 := by
  rw [Draft.perform]
  split
  rename_i h
  rw [h]
  split <;> rfl

/-- Whether a node lives below the document node. -/
def Places (r : Request) (id : NodeId) : Prop :=
  r.document.contains id = true ∧ id ≠ r.document.root

/-- What a step that fails has done: nothing, but for arguments in front of one that is refused. -/
def Step.Stops (c c' : LinkedRequest) (e : Fault) : Step → Prop
  | .addArguments args => ∃ front arg back, args = front ++ arg :: back ∧
    Drafting.addArguments front c = some (.ok (), c') ∧
    Drafting.addArgument arg.1 arg.2 c' = some (.error e, c')
  | _ => c' = c

/-- Whether a request along links is the one of a draft, whose known nodes all live. -/
structure Tracks (c : LinkedRequest) (s : Draft) : Prop where
  holds : c.Holds s.request
  known : ∀ id ∈ s.known, s.request.Places id
  request : s.request.request ∈ s.known
  command : s.request.command ∈ s.known

/-- What a step makes of a draft, along links as without them. -/
structure Takes (c c' : LinkedRequest) (s : Draft) (step : Step) : Prop where
  perform : LinkedRequest.perform step c = some ((s.request.perform step).1, c')
  tracks : Tracks c' (s.perform step)
  kept : ∃ d, (s.perform step).request = { s.request with document := d } ∧ s.request.Permits d
  fails : ∀ e, (s.request.perform step).1 = .error e →
    (∃ cause, e = .refused cause) ∧ step.Stops c c' e

theorem Permits.places (h : r.Permits d) (hc : c.Holds r)
    (hc' : c'.Holds { r with document := d }) (hid : r.Places id) :
    ({ r with document := d } : Request).Places id := by
  obtain ⟨hlive, hne⟩ := hid
  rw [hc.reached.holds.shows.contains, Option.isSome_iff_exists] at hlive
  obtain ⟨n, hn⟩ := hlive
  obtain ⟨n', hn', -⟩ := h.kept id n hn
  refine ⟨?_, ?_⟩
  · rw [hc'.reached.holds.shows.contains, hn']
    rfl
  · show id ≠ d.root
    rwa [h.root]

/-- Work that gives nothing back, as a step. -/
theorem Settles.done {P : Prop} {Q : Document → Prop} {x : Drafting Unit}
    {y : Except Fault Request} (h : Settles c r P (fun d _ => Q d) x (y.map fun r' => (r', ()))) :
    Settles c r P (fun d id? => id? = none ∧ Q d)
      (x >>= fun _ => pure none) (y.map fun r' => (r', (none : Option NodeId))) :=
  (h.map (fun _ => none) (fun d id? => id? = none ∧ Q d) fun _ _ hd => ⟨rfl, hd⟩).congr rfl
    (by cases y <;> rfl) Iff.rfl fun _ _ hd => hd

namespace Tracks

variable {s : Draft}

theorem isSome_root (h : Tracks c s) :
    (s.request.document.view s.request.document.root).isSome := by
  rw [← h.holds.reached.holds.shows.contains, h.holds.reached.holds.contains]
  exact List.mem_cons_self

/-- A step that adds what the request lets through, and gives back nodes that are there. -/
theorem next (h : Tracks c s) (hc : c'.Holds { s.request with document := d })
    (hd : s.request.Permits d) (new : List NodeId)
    (hnew : ∀ id ∈ new, ({ s.request with document := d } : Request).Places id) :
    Tracks c' ⟨{ s.request with document := d }, new ++ s.known⟩ where
  holds := hc
  known := List.forall_mem_append.2 ⟨hnew, fun id hid => hd.places h.holds hc (h.known id hid)⟩
  request := List.mem_append_right _ h.request
  command := List.mem_append_right _ h.command

theorem places_of_gains {as : List Attribute} {es : List (String × String)} {new : List NodeId}
    (h : Tracks c s) (hg : Gains s.request.document.view d.view node as es new) (hid : id ∈ new)
    (hc : c'.Holds { s.request with document := d }) (hroot : d.root = s.request.document.root) :
    ({ s.request with document := d } : Request).Places id := by
  obtain ⟨e, -, hn⟩ := hg.exists_element hid
  refine ⟨?_, fun heq => ?_⟩
  · rw [hc.reached.holds.shows.contains, hn]
    rfl
  · have htop := h.isSome_root
    rw [← hroot, ← heq, hg.fresh id hid] at htop
    simp at htop

/-- What a step comes to, with what it does along links and without them. -/
theorem takes_of (h : Tracks c s) {step : Step} {result : Except Fault (Option NodeId)}
    (hx : LinkedRequest.perform step c = some (result, c'))
    (hperform : s.request.perform step = (result, { s.request with document := d }))
    (hc : c'.Holds { s.request with document := d }) (hd : s.request.Permits d)
    (hnew : ∀ id, result = .ok (some id) → ({ s.request with document := d } : Request).Places id)
    (hfails : ∀ e, result = .error e → (∃ cause, e = .refused cause) ∧ step.Stops c c' e) :
    Takes c c' s step := by
  obtain ⟨new, hdraft, hplaces⟩ : ∃ new : List NodeId,
      s.perform step = ⟨{ s.request with document := d }, new ++ s.known⟩ ∧
        ∀ id ∈ new, ({ s.request with document := d } : Request).Places id := by
    rw [Draft.perform, hperform]
    rcases result with e | _ | id
    · exact ⟨[], rfl, by simp⟩
    · exact ⟨[], rfl, by simp⟩
    · exact ⟨[id], rfl, List.forall_mem_singleton.2 (hnew id rfl)⟩
  refine ⟨by rw [hx, hperform], ?_, ⟨d, by rw [hdraft], hd⟩, by rwa [hperform]⟩
  rw [hdraft]
  exact h.next hc hd new hplaces

/-- Work that is taken or refused is a step. -/
theorem takes {P : Prop} {Q : Document → Option NodeId → Prop} {step : Step}
    {y : Except Fault (Request × Option NodeId)} (h : Tracks c s)
    (hs : Settles c s.request P Q (LinkedRequest.perform step) y)
    (hy : s.request.perform step = s.request.outcome y) (hstops : ∀ e, step.Stops c c e)
    (hQ : P → ∀ (c' : LinkedRequest) d id?, Q d id? → c'.Holds { s.request with document := d } →
      d.root = s.request.document.root → s.request.Permits d ∧
        ∀ id ∈ id?, ({ s.request with document := d } : Request).Places id) :
    ∃ c', Takes c c' s step := by
  cases hs with
  | taken c' d id? hp hx hok hholds hroot hq =>
    obtain ⟨hd, hnew⟩ := hQ hp c' d id? hq hholds hroot
    have hperform : s.request.perform step = (.ok id?, { s.request with document := d }) := by
      rw [hy, hok, outcome]
    exact ⟨c', h.takes_of hx hperform hholds hd (by simpa using hnew) (by simp)⟩
  | refused cause hp hx herror =>
    have hperform : s.request.perform step = (.error (.refused cause), s.request) := by
      rw [hy, herror, outcome]
    exact ⟨c, h.takes_of hx hperform h.holds (.refl _) (by simp)
      fun e he => ⟨⟨cause, (Except.error.inj he).symm⟩, hstops e⟩⟩

/-- Arguments, up to the first that is refused. -/
theorem takes_addArguments (h : Tracks c s) (args : List (String × String)) :
    ∃ c', Takes c c' s (.addArguments args) := by
  have hcommand := h.known _ h.command
  obtain ⟨c', d, new, hadds⟩ := addArguments_spec args h.holds hcommand.1
  have hpermits : s.request.Permits d :=
    .of_arguments hadds.root hcommand.2 h.isSome_root hadds.gains rfl fun arg harg => by
      simpa using List.mem_takeWhile_imp harg
  rcases hadds.result with
    ⟨hfront, hmodel⟩ | ⟨arg, back, cause, hargs, -, hlast, hall, hmodel⟩
  · have hadded := hadds.added
    rw [hfront] at hadded
    have hx : LinkedRequest.perform (.addArguments args) c = some (.ok none, c') :=
      Drafting.bind_of_ok hadded
    have hperform : s.request.perform (.addArguments args) =
        (.ok none, { s.request with document := d }) := by
      rw [Request.perform, hmodel]
    exact ⟨c', h.takes_of hx hperform hadds.holds hpermits (by simp) (by simp)⟩
  · have hx : LinkedRequest.perform (.addArguments args) c =
        some (.error (.refused cause), c') := Drafting.bind_of_error hall
    have hperform : s.request.perform (.addArguments args) =
        (.error (.refused cause), { s.request with document := d }) := by
      rw [Request.perform, hmodel]
    refine ⟨c', h.takes_of hx hperform hadds.holds hpermits (by simp) fun e he => ?_⟩
    obtain rfl := Except.error.inj he
    exact ⟨⟨cause, rfl⟩, _, arg, back, hargs, hadds.added, hlast⟩

/-- A step for a node that is known. -/
theorem perform (h : Tracks c s) {step : Step} (ha : s.accepts step = true) :
    ∃ c', Takes c c' s step := by
  have htarget : ∀ node, step.target? = some node → s.request.Places node := by
    intro node hnode
    rw [Draft.accepts, hnode, Option.all_some, List.contains_iff_mem] at ha
    exact h.known node ha
  have hcommand := h.known _ h.command
  cases step with
  | addArgument key value =>
    refine h.takes (settles_addArgument h.holds hcommand.1 key value).done rfl (fun _ => rfl)
      fun hr c' d id? ⟨hnone, new, hgains⟩ hholds hroot => ⟨?_, by simp [hnone]⟩
    exact .of_arguments hroot hcommand.2 h.isSome_root hgains rfl
      (List.forall_mem_singleton.2 hr)
  | addElement parent name value =>
    obtain ⟨hlive, hne⟩ := htarget parent rfl
    have hsettles := (settles_addElement h.holds hlive name value).map some
      (fun d id? => ∃ id, id? = some id ∧
        Gains s.request.document.view d.view parent [] [(name, value)] [id])
      fun d id hd => ⟨id, rfl, hd⟩
    refine h.takes hsettles rfl (fun _ => rfl) fun hp c' d id? ⟨id, hid, hgains⟩ hholds hroot =>
      ⟨?_, ?_⟩
    · exact .of_gains hroot hne h.isSome_root hgains (by simp) (List.forall_mem_singleton.2 hp)
    · intro k hk
      refine h.places_of_gains hgains ?_ hholds hroot
      rw [hid, Option.mem_some_iff] at hk
      exact List.mem_singleton.2 hk.symm
  | addAttribute node name value =>
    obtain ⟨hlive, hne⟩ := htarget node rfl
    refine h.takes (settles_addAttribute h.holds hlive name value).done rfl (fun _ => rfl)
      fun hp c' d id? ⟨hnone, hgains⟩ hholds hroot => ⟨?_, by simp [hnone]⟩
    exact .of_gains hroot hne h.isSome_root hgains (List.forall_mem_singleton.2 hp) (by simp)
  | setText node value =>
    obtain ⟨hlive, hne⟩ := htarget node rfl
    refine h.takes (settles_setText h.holds hlive value).done rfl (fun _ => rfl)
      fun hp c' d id? ⟨hnone, hrelabels⟩ hholds hroot => ⟨?_, by simp [hnone]⟩
    exact .of_text hroot hne hrelabels
  | addArguments args => exact h.takes_addArguments args

/-- After any number of steps for nodes that are known. -/
theorem run : ∀ (steps : List Step) {c : LinkedRequest} {s : Draft}, Tracks c s →
    s.acceptsAll steps = true → ∃ c' d, c.run steps = some c' ∧
      Tracks c' (steps.foldl Draft.perform s) ∧
      (steps.foldl Draft.perform s).request = { s.request with document := d } ∧
      s.request.Permits d
  | [], c, s, h, _ => ⟨c, s.request.document, rfl, h, rfl, .refl _⟩
  | step :: steps, c, s, h, ha => by
    rw [Draft.acceptsAll, Bool.and_eq_true] at ha
    obtain ⟨c₁, htakes⟩ := h.perform ha.1
    obtain ⟨d₁, hrequest, hpermits⟩ := htakes.kept
    obtain ⟨c', d, hrun, htracks, hrequest', hpermits'⟩ := run steps htakes.tracks ha.2
    rw [hrequest] at hrequest' hpermits'
    refine ⟨c', d, ?_, htracks, hrequest', hpermits.trans hpermits'⟩
    rw [LinkedRequest.run, htakes.perform]
    exact hrun

end Tracks

/-! ## New requests -/

/-- What is appended to a document is appended to its links. -/
theorem exists_appended {c : LinkedDocument} {name value : String} (h : Reached c d)
    (parent new : NodeId) (d' : Document) (hp : d.contains parent = true)
    (hd : d.appendChild parent (.element name value) = (.ok new, d')) :
    ∃ c', c.appendChild parent (.element name value) = some (new, c') ∧ Reached c' d' := by
  obtain ⟨new', c', d'', hc, hd', h', -⟩ := h.appendElement hp name value
  rw [hd, Prod.mk.injEq, Except.ok.injEq] at hd'
  obtain ⟨rfl, rfl⟩ := hd'
  exact ⟨c', hc, h'⟩

theorem exists_attributed {c : LinkedDocument} (h : Reached c d) (node : NodeId)
    (name value : String) (d' : Document) (hn : d.contains node = true)
    (hd : d.appendAttribute node name value = .ok d') :
    ∃ c', c.relabel node (fun l => l.addAttribute name value) = some c' ∧ Reached c' d' := by
  obtain ⟨c', d'', hc, hd', h', -⟩ :=
    h.relabel hn (e := .appendAttribute node name value) rfl rfl rfl rfl
  obtain rfl := Except.ok.inj (hd.symm.trans hd')
  exact ⟨c', hc, h'⟩

/-- A request element, and a command element below it. -/
theorem exists_command (agent : String) (kind : Option RequestKind) (name value : String) :
    ∃ c₁ c₂, LinkedRequest.withRoot agent = some (c₁, ⟨1⟩) ∧
      c₁.appendChild ⟨1⟩ (.element name value) = some (⟨2⟩, c₂) ∧
      Reached c₂ (make agent kind (.element name value) []).document := by
  let top := Label.element elementName ""
  obtain ⟨c, hc, h⟩ := exists_appended .empty ⟨0⟩ ⟨1⟩ (.ofForest (.cons top .nil .nil)) rfl rfl
  obtain ⟨c₁, hc₁, h₁⟩ := exists_attributed h ⟨1⟩ agentName agent
    (.ofForest (.cons (top.addAttribute agentName agent) .nil .nil)) rfl rfl
  obtain ⟨c₂, hc₂, h₂⟩ := exists_appended h₁ ⟨1⟩ ⟨2⟩
    (make agent kind (.element name value) []).document rfl rfl
  refine ⟨c₁, c₂, ?_, hc₂, h₂⟩
  have hroot : LinkedDocument.empty.root = ⟨0⟩ := rfl
  simp only [LinkedRequest.withRoot, hroot, hc, hc₁, Option.bind_eq_bind, Option.bind_some]
  rfl

theorem exists_new (agent : String) (kind : RequestKind) (command : String) :
    ∃ c, LinkedRequest.new agent kind command = some c ∧ c.Holds (.new agent kind command) := by
  let named := (Label.element kind.elementName "").addAttribute commandName command
  obtain ⟨c₁, c₂, hc₁, hc₂, h₂⟩ := exists_command agent (some kind) kind.elementName ""
  obtain ⟨c₃, hc₃, h₃⟩ := exists_attributed h₂ ⟨2⟩ commandName command
    (make agent (some kind) named []).document rfl rfl
  cases kind with
  | parse =>
    obtain ⟨c₁, c₂, hc₁, hc₂, h₂⟩ := exists_command agent (some .parse)
      RequestKind.parse.elementName command
    refine ⟨⟨c₂, ⟨1⟩, ⟨2⟩, some .parse⟩, ?_, h₂, rfl, rfl, rfl⟩
    simp only [LinkedRequest.new, hc₁, hc₂, Option.bind_eq_bind, Option.bind_some]
    rfl
  | config | execute =>
    refine ⟨⟨c₃, ⟨1⟩, ⟨2⟩, some _⟩, ?_, h₃, rfl, rfl, rfl⟩
    simp only [LinkedRequest.new, hc₁, hc₂, hc₃, Option.bind_eq_bind, Option.bind_some]
    rfl

theorem exists_withValue (agent name value : String) :
    ∃ c, LinkedRequest.withValue agent name value = some c ∧
      c.Holds (.withValue agent name value) := by
  obtain ⟨c₁, c₂, hc₁, hc₂, h₂⟩ := exists_command agent none name value
  refine ⟨⟨c₂, ⟨1⟩, ⟨2⟩, none⟩, ?_, h₂, rfl, rfl, rfl⟩
  simp only [LinkedRequest.withValue, hc₁, hc₂, Option.bind_eq_bind, Option.bind_some]
  rfl

theorem exists_hello (agent user password tag : String) :
    ∃ c, LinkedRequest.hello agent user password tag = some c ∧
      c.Holds (.hello agent user password tag) := by
  obtain ⟨c, hc, h⟩ := exists_withValue agent "hello" ""
  let hello := Label.element "hello" ""
  obtain ⟨c₁, hc₁, h₁⟩ := exists_appended h.reached ⟨2⟩ ⟨3⟩
    (make agent none hello [.element "user" user]).document rfl rfl
  obtain ⟨c₂, hc₂, h₂⟩ := exists_appended h₁ ⟨2⟩ ⟨4⟩
    (make agent none hello [.element "user" user, .element "password" password]).document rfl rfl
  obtain ⟨c₃, hc₃, h₃⟩ := exists_appended h₂ ⟨2⟩ ⟨5⟩
    (Request.hello agent user password tag).document rfl rfl
  have hcommand : c.command = ⟨2⟩ := h.command
  refine ⟨{ c with document := c₃ }, ?_, h₃, h.request, h.command, h.kind⟩
  simp only [LinkedRequest.hello, LinkedRequest.bare, hc, hcommand, hc₁, hc₂, hc₃,
    Option.bind_eq_bind, Option.bind_some]
  rfl

/-- A new request along links. -/
theorem exists_linked : ∀ o : Origin, ∃ c, o.linked = some c ∧ c.Holds o.request
  | .new agent kind command => exists_new agent kind command
  | .bare agent name => exists_withValue agent name ""
  | .withValue agent name value => exists_withValue agent name value
  | .hello agent user password tag => exists_hello agent user password tag

theorem tracks_start {o : Origin} (h : c.Holds o.request) : Tracks c (.start o.request) where
  holds := h
  known := by
    have hne : (⟨1⟩ : NodeId) ≠ ⟨0⟩ ∧ (⟨2⟩ : NodeId) ≠ ⟨0⟩ := by decide
    have hplaces : o.request.Places ⟨1⟩ ∧ o.request.Places ⟨2⟩ := by
      rcases o with ⟨agent, _ | _ | _, command⟩ | _ | _ | _ <;>
        exact ⟨⟨rfl, hne.1⟩, rfl, hne.2⟩
    have hids : o.request.request = ⟨1⟩ ∧ o.request.command = ⟨2⟩ := by
      rcases o with ⟨agent, _ | _ | _, command⟩ | _ | _ | _ <;> exact ⟨rfl, rfl⟩
    rw [Draft.start, hids.1, hids.2]
    simpa using hplaces
  request := List.mem_cons_self
  command := List.mem_cons_of_mem _ List.mem_cons_self

/-! ## Requests with the steps by which they are made up -/

/-- How a request is made up. -/
structure Composition where
  origin : Origin
  steps : List Step
  accepted : (Draft.start origin.request).acceptsAll steps = true

namespace Composition

variable (m : Composition)

/-- The request, and the nodes that are known of it. -/
def draft : Draft :=
  m.steps.foldl Draft.perform (.start m.origin.request)

def request : Request :=
  m.draft.request

def linked : Option LinkedRequest := do
  (← m.origin.linked).run m.steps

/-- However it is made up, a request is there, along links as without them, and is one that it was
let become. -/
theorem exists_tracks : ∃ c d, m.linked = some c ∧ Tracks c m.draft ∧
    m.request = { m.origin.request with document := d } ∧ m.origin.request.Permits d := by
  obtain ⟨c₀, hc₀, h₀⟩ := exists_linked m.origin
  obtain ⟨c, d, hc, h, hrequest, hpermits⟩ := (tracks_start h₀).run m.steps m.accepted
  refine ⟨c, d, ?_, h, hrequest, hpermits⟩
  rw [linked, hc₀]
  exact hc

end Composition

end Request

end Treegram
