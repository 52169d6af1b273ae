import Treegram.Proofs.DraftedRequests

/-!
# Lists of arguments

A list of arguments is taken up to the first whose key is refused (`arguments_taken`). What is taken
is told apart by the markers of the keys, and each part keeps its order: the attributes come behind
those of the command element, the elements behind its children, and nothing else in the document is
touched.
-/

namespace Treegram

namespace Request

/-- What comes of a list of arguments. `count` of them are taken. -/
structure TakesArguments (c c' : LinkedRequest) (r : Request) (d : Document)
    (args : List (String × String)) (count : Nat) : Prop where
  shows : c'.Shows { r with document := d }
  root : d.root = r.document.root
  gains : ∃ new, Gains r.document.view d.view r.command (attributesOf (args.take count))
    (elementsOf (args.take count)) new
  success : count = args.length → Drafting.addArguments args c = some (.ok (), c') ∧
    r.addArguments args = ({ r with document := d }, none)
  failure : count < args.length → ∃ cause,
    Drafting.addArguments args c = some (.error (.refused cause), c') ∧
      r.addArguments args = ({ r with document := d }, some (.refused cause))

theorem AddsUpTo.takesArguments {c c' : LinkedRequest} {r : Request} {d : Document}
    {args : List (String × String)} {count : Nat} {new : List NodeId}
    (h : AddsUpTo c c' r d args (args.take count) new) (hcount : count ≤ args.length) :
    TakesArguments c c' r d args count := by
  have hlength : (args.take count).length = count := List.length_take_of_le hcount
  refine ⟨h.holds.shows, h.root, ⟨new, h.gains⟩, fun hall => ?_, fun hshort => ?_⟩
  · have hadded := h.added
    rw [hall, List.take_length] at hadded
    rcases h.result with ⟨-, hmodel⟩ | ⟨arg, back, cause, hargs, -⟩
    · exact ⟨hadded, hmodel⟩
    -- none is left to be refused
    · have hlong := congrArg List.length hargs
      rw [List.length_append, hlength, hall] at hlong
      simp at hlong
  · rcases h.result with ⟨hargs, -⟩ | ⟨arg, back, cause, -, -, -, hlinked, hmodel⟩
    · rw [hargs] at hlength
      omega
    · exact ⟨cause, hlinked, hmodel⟩

/-- However a request was made up, a list of arguments is taken in order up to the first whose key
is refused. -/
theorem arguments_taken (m : Composition) (args : List (String × String)) :
    ∃ c c' d, m.linked = some c ∧ c.Shows m.request ∧
      TakesArguments c c' m.request d args (args.findIdx fun arg => m.request.rejects arg.1) := by
  obtain ⟨c, -, hc, htracks, -⟩ := m.exists_tracks
  obtain ⟨c', d, new, hadds⟩ :=
    addArguments_spec args htracks.holds (htracks.known _ htracks.command).1
  rw [List.takeWhile_eq_take_findIdx_not] at hadds
  simp only [Bool.not_not] at hadds
  exact ⟨c, c', d, hc, htracks.holds.shows, hadds.takesArguments List.findIdx_le_length⟩

/-- A marker makes an attribute, and only one is stripped; an element may be called anything. -/
example : attributesOf [("@a", "1"), ("b", "2"), ("@@a", "3"), ("@a", "4")] =
      [⟨"a", "1"⟩, ⟨"@a", "3"⟩, ⟨"a", "4"⟩] ∧
    elementsOf [("@a", "1"), ("name", "2"), ("b@", "3")] = [("name", "2"), ("b@", "3")] := by
  decide

end Request

end Treegram
