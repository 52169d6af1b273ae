import Treegram.Proofs.DraftedRequests

/-!
# Commands that stay what they are

A request for a command names its agent and its command first, and nothing that is added to it later
takes their places: the request element and the command element only get more behind what they have,
the command element of a line to be parsed gets nothing at all, and no other gets a second attribute
named like the one for the command (`command_guarded`).
-/

namespace Treegram

namespace Request

/-- Whether a request is for a command of an agent, whatever else was added to it. -/
structure Guards (agent : String) (kind : RequestKind) (command : String) (r : Request) :
    Prop where
  top : ∃ n, r.document.view r.document.root = some n ∧ n.children = [r.request]
  request : ∃ n attributes children, r.document.view r.request = some n ∧
    n.label.kind = .element ∧ n.label.name = "request" ∧
    n.label.attributes = ⟨"agent", agent⟩ :: attributes ∧ n.children = r.command :: children
  command : ∃ n, r.document.view r.command = some n ∧
    n.label.kind = .element ∧ n.label.name = kind.elementName ∧
    match kind with
    | .parse => n.label.attributes = [] ∧ n.children = []
    | .config | .execute => ∃ attributes, n.label.attributes = ⟨"name", command⟩ :: attributes ∧
      ∀ a ∈ attributes, a.name ≠ "name"

variable {agent command : String} {kind : RequestKind} {r : Request} {d : Document}

theorem guards_new (agent : String) (kind : RequestKind) (command : String) :
    Guards agent kind command (.new agent kind command) := by
  cases kind with
  | parse => exact ⟨⟨_, rfl, rfl⟩, ⟨_, _, _, rfl, rfl, rfl, rfl, rfl⟩, _, rfl, rfl, rfl, rfl, rfl⟩
  | config | execute =>
    exact ⟨⟨_, rfl, rfl⟩, ⟨_, _, _, rfl, rfl, rfl, rfl, rfl⟩, _, rfl, rfl, rfl, _, rfl, by simp⟩

/-- A node that is closed gets nothing. -/
theorem Enriches.of_closed {id : NodeId} {n n' : NodeView} {cause : Refusal}
    (h : r.Enriches id n n') (hclosed : r.closedTo? id = some cause) :
    n'.label.attributes = n.label.attributes ∧ n'.children = n.children := by
  obtain ⟨as, has, hadmits⟩ := h.attributes
  obtain ⟨new, hnew, hopen⟩ := h.children
  have hnone : as = [] := by
    refine List.eq_nil_iff_forall_not_mem.2 fun a ha => ?_
    have hadmitted := (hadmits a ha).2.1
    rw [hclosed] at hadmitted
    simp at hadmitted
  have hnone' : new = [] := by
    by_contra hne
    have hopened := hopen hne
    rw [hclosed] at hopened
    simp at hopened
  rw [has, hnew, hnone, hnone', List.append_nil, List.append_nil]
  exact ⟨rfl, rfl⟩

theorem Guards.of_permits (h : Guards agent kind command r) (hkind : r.kind = some kind)
    (hd : r.Permits d) : Guards agent kind command { r with document := d } where
  top := by
    obtain ⟨n, hn, hchildren⟩ := h.top
    exact ⟨n, by rw [hd.root, hd.top, hn], hchildren⟩
  request := by
    obtain ⟨n, attributes, children, hn, hk, hname, hattributes, hchildren⟩ := h.request
    obtain ⟨n', hn', hgrown⟩ := hd.kept _ n hn
    obtain ⟨as, has, -⟩ := hgrown.attributes
    obtain ⟨new, hnew, -⟩ := hgrown.children
    rw [hattributes, List.cons_append] at has
    rw [hchildren, List.cons_append] at hnew
    exact ⟨n', _, _, hn', hgrown.kind.trans hk, hgrown.name.trans hname, has, hnew⟩
  command := by
    obtain ⟨n, hn, hk, hname, hrest⟩ := h.command
    obtain ⟨n', hn', hgrown⟩ := hd.kept _ n hn
    refine ⟨n', hn', hgrown.kind.trans hk, hgrown.name.trans hname, ?_⟩
    cases kind with
    | parse =>
      have hclosed : r.closedTo? r.command = some .parseArgument := if_pos ⟨rfl, hkind⟩
      obtain ⟨hattributes, hchildren⟩ := hgrown.of_closed hclosed
      exact ⟨hattributes.trans hrest.1, hchildren.trans hrest.2⟩
    | config | execute =>
      obtain ⟨attributes, hattributes, hother⟩ := hrest
      obtain ⟨as, has, hadmits⟩ := hgrown.attributes
      rw [hattributes, List.cons_append] at has
      refine ⟨_, has, List.forall_mem_append.2 ⟨hother, fun a ha hreserved => ?_⟩⟩
      exact (hadmits a ha).2.2 ⟨rfl, hreserved, by rw [hkind]; rfl⟩

/-- Whatever is done to a request for a command, it stays one for this command of this agent. A step
that fails is refused and changes nothing, but for arguments in front of the one that is refused. -/
theorem command_guarded (agent : String) (kind : RequestKind) (command : String)
    (m : Composition) (h : m.origin = .new agent kind command) :
    ∃ c, m.linked = some c ∧ c.Shows m.request ∧ Guards agent kind command m.request ∧
      ∀ step, m.draft.accepts step = true → ∃ c',
        LinkedRequest.perform step c = some ((m.request.perform step).1, c') ∧
        c'.Shows (m.request.perform step).2 ∧
        ∀ e, (m.request.perform step).1 = .error e →
          (∃ cause, e = .refused cause) ∧ step.Stops c c' e := by
  obtain ⟨c, d, hc, htracks, hrequest, hpermits⟩ := m.exists_tracks
  refine ⟨c, hc, htracks.holds.shows, ?_, fun step hstep => ?_⟩
  · rw [h] at hrequest hpermits
    rw [hrequest]
    exact (guards_new agent kind command).of_permits rfl hpermits
  · obtain ⟨c', htakes⟩ := htracks.perform hstep
    refine ⟨c', htakes.perform, ?_, htakes.fails⟩
    rw [Composition.request, ← Draft.request_perform]
    exact htakes.tracks.holds.shows

/-- Arguments up to one that is refused, and attempts to name the command again. -/
def stubborn : List Step :=
  [.addArguments [("@@name", "x"), ("mtu", "1500"), ("@name", "y"), ("late", "z")],
    .addElement ⟨2⟩ "detail" "", .addAttribute ⟨4⟩ "name" "y", .addAttribute ⟨2⟩ "name" "y",
    .setText ⟨1⟩ "t"]

theorem command_guarded_stubborn : ∃ (m : Composition) (c : LinkedRequest),
    m.origin = .new "cli" .execute "show" ∧ m.steps = stubborn ∧ m.linked = some c ∧
    Guards "cli" .execute "show" m.request ∧
    m.draft.accepts (.addArguments [("k", "v"), ("@name", "y")]) = true ∧
    (m.request.perform (.addArguments [("k", "v"), ("@name", "y")])).1 =
      .error (.refused .reservedName) ∧
    ∃ c', LinkedRequest.perform (.addArguments [("k", "v"), ("@name", "y")]) c =
        some (.error (.refused .reservedName), c') ∧
      (Step.addArguments [("k", "v"), ("@name", "y")]).Stops c c' (.refused .reservedName) := by
  let m : Composition := ⟨.new "cli" .execute "show", stubborn, by decide⟩
  obtain ⟨c, hc, -, hguards, hsteps⟩ := command_guarded "cli" .execute "show" m rfl
  obtain ⟨c', hperform, -, hfails⟩ := hsteps (.addArguments [("k", "v"), ("@name", "y")]) rfl
  have hrefused : (m.request.perform (.addArguments [("k", "v"), ("@name", "y")])).1 =
      .error (.refused .reservedName) := by decide +kernel
  rw [hrefused] at hperform
  exact ⟨m, c, rfl, rfl, hc, hguards, rfl, hrefused, c', hperform, (hfails _ hrefused).2⟩

end Request

end Treegram
