import Treegram.Proofs.ReadUnits

/-!
# The grammar of messages

Which lists of units are messages is said by what stands in front of each unit alone: how many
nodes are open there, and whether a document came first. Reading keeps track of just that
(`Assembly.Tracks`), so it accepts the bytes of such a list, with anything behind them, and nothing
else (`decodeDocument_grammar`).
-/

namespace Treegram

/-! ## Messages -/

/-- By how many a unit changes the number of open nodes. A document is never open. -/
def WireUnit.rise : WireUnit → Int
  | .node .child kind _ _ => if kind = .document then 0 else 1
  | .close _ => -1
  | _ => 0

/-- The number of nodes that are open behind the units. -/
def depth : List WireUnit → Int
  | [] => 0
  | u :: us => u.rise + depth us

def OpensDocument (us : List WireUnit) : Prop :=
  ∃ name value, us.head? = some (.node .child .document name value)

namespace WireUnit

/-- Whether the unit may stand behind the units `front`. -/
def MayFollow (front : List WireUnit) : WireUnit → Prop
  | .node place kind name _ =>
    (kind = .document → front = [] ∧ place = .child) ∧
      (name ≠ "" ↔ kind = .element ∨ kind = .pi) ∧ (place = .sibling → 1 ≤ depth front)
  | .attr _ name _ => name ≠ "" ∧ 1 ≤ depth front
  | .close _ => 1 ≤ depth front ∨ OpensDocument front ∧ depth front = 0

/-- Whether a message ends with the unit behind `front`. The top node of a message stays open; a
document's children do not. -/
def Ends (front : List WireUnit) : WireUnit → Prop
  | .close kind =>
    (¬ OpensDocument front ∧ depth (front ++ [.close kind]) ≤ 1) ∨
      (OpensDocument front ∧ (depth front = 0 ∨ depth (front ++ [.close kind]) = 0))
  | _ => False

end WireUnit

/-- Whether units make up a message: they start with a child, each of them may stand where it
does, and the last is the first with which a message ends. -/
structure IsMessage (us : List WireUnit) : Prop where
  first : ∃ kind name value, us.head? = some (.node .child kind name value)
  allowed : ∀ front u rest, us = front ++ u :: rest → u.MayFollow front
  stops : ∀ front u rest, us = front ++ u :: rest → (u.Ends front ↔ rest = [])

/-! ## Counting -/

@[simp] theorem depth_nil : depth [] = 0 := rfl

@[simp] theorem depth_append : ∀ us vs : List WireUnit, depth (us ++ vs) = depth us + depth vs
  | [], vs => (Int.zero_add _).symm
  | u :: us, vs => by rw [List.cons_append, depth, depth, depth_append us vs, Int.add_assoc]

@[simp] theorem depth_singleton (u : WireUnit) : depth [u] = u.rise := by
  simp [depth]

@[simp] theorem not_opensDocument_nil : ¬ OpensDocument [] := by
  simp [OpensDocument]

theorem opensDocument_append_singleton (us : List WireUnit) {u : WireUnit}
    (h : ¬ OpensDocument [u]) : OpensDocument (us ++ [u]) ↔ OpensDocument us := by
  rcases us with _ | ⟨v, us⟩
  · simp [h]
  · rfl

theorem nameFault?_eq_none_iff {kind : NodeKind} {name : String} :
    nameFault? kind name = none ↔ (name ≠ "" ↔ kind = .element ∨ kind = .pi) := by
  by_cases h : name = "" <;> cases kind <;> simp [nameFault?, NodeKind.requiresName, h]

/-! ## One unit -/

namespace Assembly

/-- The ways in which a unit is read. -/
inductive Steps (below : Bool) (a : Assembly) : WireUnit → Progress → Prop
  | document {name value : String} (hb : below = true) (hs : a.started = false)
    (hn : nameFault? .document name = none) :
    Steps below a (.node .child .document name value)
      (.more { a with started := true, isDocument := true })
  | child {kind : NodeKind} {name value : String} (hk : kind ≠ .document)
    (hn : nameFault? kind name = none) :
    Steps below a (.node .child kind name value) (.more (a.openNode kind name value))
  | sibling {kind : NodeKind} {name value : String} (hk : kind ≠ .document)
    (hn : nameFault? kind name = none) (hp : a.path ≠ []) :
    Steps below a (.node .sibling kind name value) (.more (a.close.openNode kind name value))
  | attr {kind : NodeKind} {name value : String} {n : OpenNode} {path : List OpenNode}
    (hp : a.path = n :: path) (hn : name ≠ "") :
    Steps below a (.attr kind name value) (.more { a with path :=
      { n with label.attributes := ⟨name, value⟩ :: n.label.attributes } :: path })
  | endNothing {kind : NodeKind} (hp : a.path = []) (hd : a.isDocument = true) :
    Steps below a (.close kind) (.complete a)
  | endMessage {kind : NodeKind} (hp : a.path ≠ []) (hc : a.close.isComplete = true) :
    Steps below a (.close kind) (.complete a.close)
  | endNode {kind : NodeKind} (hp : a.path ≠ []) (hc : a.close.isComplete = false) :
    Steps below a (.close kind) (.more a.close)

variable {below : Bool} {front : List WireUnit} {a b : Assembly} {u : WireUnit} {p : Progress}

theorem Steps.step_eq (h : a.Steps below u p) : a.step below u = .ok p := by
  cases h with
  | document hb hs hn => simp [step, hb, hs, hn]
  | child hk hn => simp [step, hk, hn]
  | sibling hk hn hp =>
    obtain ⟨n, path, hq⟩ := List.exists_cons_of_ne_nil hp
    simp [step, hk, hn, hq]
  | attr hp hn => simp [step, hp, hn]
  | endNothing hp hd => simp [step, hp, hd]
  | endMessage hp hc => simp [step_close hp, hc]
  | endNode hp hc => simp [step_close hp, hc]

theorem steps_of_step_eq (h : a.step below u = .ok p) : a.Steps below u p := by
  rcases u with ⟨place, kind, name, value⟩ | ⟨kind, name, value⟩ | kind
  · simp only [step] at h
    split at h
    · rename_i hk
      subst hk
      split at h
      · simp at h
      · rename_i hfirst
        simp only [not_or, Bool.not_eq_true, not_not] at hfirst
        obtain ⟨hs, rfl⟩ := hfirst
        split at h
        · simp at h
        · rename_i hb
          split at h <;> cases h
          exact .document (by simpa using hb) hs ‹_›
    · rename_i hk
      split at h
      · simp at h
      · rename_i hn
        split at h <;> cases h
        · exact .child hk hn
        · exact .sibling hk hn ‹_›
  · simp only [step] at h
    split at h
    · simp at h
    · rename_i n path hp
      split at h <;> cases h
      exact .attr hp ‹_›
  · by_cases hp : a.path = []
    · simp only [step, hp] at h
      split at h <;> cases h
      exact .endNothing hp ‹_›
    · rw [step_close hp] at h
      rcases hc : a.close.isComplete <;> rw [hc] at h <;> cases h
      · exact .endNode hp hc
      · exact .endMessage hp hc

theorem step_eq_ok_iff : a.step below u = .ok p ↔ a.Steps below u p :=
  ⟨steps_of_step_eq, Steps.step_eq⟩

/-! ## What is kept track of -/

theorem length_close (a : Assembly) : a.close.path.length = a.path.length - 1 := by
  rcases a with ⟨started, isDocument, roots, _ | ⟨n, _ | ⟨m, path⟩⟩⟩ <;> rfl

theorem isDocument_close (a : Assembly) : a.close.isDocument = a.isDocument := by
  rcases a with ⟨started, isDocument, roots, _ | ⟨n, _ | ⟨m, path⟩⟩⟩ <;> rfl

theorem isComplete_iff (a : Assembly) :
    a.isComplete = true ↔ a.path.length ≤ if a.isDocument then 0 else 1 := by
  rcases a with ⟨started, _ | _, roots, _ | ⟨n, _ | ⟨m, path⟩⟩⟩ <;> simp [isComplete]

/-- Whether the state is one in which the units `front` have been read, as far as it matters for
what may follow. -/
structure Tracks (front : List WireUnit) (a : Assembly) : Prop where
  started : a.started = true ↔ front ≠ []
  isDocument : a.isDocument = true ↔ OpensDocument front
  depth : (a.path.length : Int) = depth front

theorem tracks_start : Tracks [] start where
  started := by simp [start]
  isDocument := by simp [start]
  depth := rfl

namespace Tracks

variable (h : Tracks front a)

include h

theorem path_eq_nil : a.path = [] ↔ Treegram.depth front = 0 := by
  rw [← h.depth]
  simp

theorem one_le_depth : a.path ≠ [] ↔ 1 ≤ Treegram.depth front := by
  rw [← h.depth, ← List.length_pos_iff]
  omega

/-- Something was read before a node was opened. -/
theorem started_of_path (hp : a.path ≠ []) : a.started = true := by
  rw [h.started]
  rintro rfl
  exact absurd (h.one_le_depth.1 hp) (by simp)

/-- Only a document unit that comes first changes whether there is a document. -/
theorem extend (hu : ¬ OpensDocument [u]) (hs : b.started = true)
    (hd : b.isDocument = a.isDocument) (hp : (b.path.length : Int) = a.path.length + u.rise) :
    Tracks (front ++ [u]) b where
  started := by simp [hs]
  isDocument := by rw [hd, h.isDocument, opensDocument_append_singleton front hu]
  depth := by rw [hp, h.depth, depth_append, depth_singleton]

/-- A unit is read exactly if it may stand where it does. -/
theorem mayFollow_iff (u : WireUnit) : u.MayFollow front ↔ ∃ p, a.Steps true u p := by
  constructor
  · intro hmay
    rcases u with ⟨place, kind, name, value⟩ | ⟨kind, name, value⟩ | kind
    · obtain ⟨hdoc, hn, hplace⟩ := hmay
      rw [← nameFault?_eq_none_iff] at hn
      by_cases hk : kind = .document
      · subst hk
        obtain ⟨hfront, rfl⟩ := hdoc rfl
        have hs : a.started = false := by
          rw [Bool.eq_false_iff, Ne, h.started]
          simpa using hfront
        exact ⟨_, .document rfl hs hn⟩
      · cases place
        · exact ⟨_, .child hk hn⟩
        · exact ⟨_, .sibling hk hn (h.one_le_depth.2 (hplace rfl))⟩
    · obtain ⟨n, path, hp⟩ := List.exists_cons_of_ne_nil (h.one_le_depth.2 hmay.2)
      exact ⟨_, .attr hp hmay.1⟩
    · rcases hmay with hopen | ⟨hdoc, hnone⟩
      · have hp := h.one_le_depth.2 hopen
        rcases hc : a.close.isComplete with _ | _
        · exact ⟨_, .endNode hp hc⟩
        · exact ⟨_, .endMessage hp hc⟩
      · exact ⟨_, .endNothing (h.path_eq_nil.2 hnone) (h.isDocument.2 hdoc)⟩
  · rintro ⟨p, hs⟩
    cases hs with
    | document hb hs hn =>
      have hfront : front = [] := by simpa [hs] using h.started
      exact ⟨fun _ => ⟨hfront, rfl⟩, nameFault?_eq_none_iff.1 hn, by simp⟩
    | child hk hn => exact ⟨fun hd => absurd hd hk, nameFault?_eq_none_iff.1 hn, by simp⟩
    | sibling hk hn hp =>
      exact ⟨fun hd => absurd hd hk, nameFault?_eq_none_iff.1 hn, fun _ => h.one_le_depth.1 hp⟩
    | attr hp hn => exact ⟨hn, h.one_le_depth.1 (by simp [hp])⟩
    | endNothing hp hd => exact .inr ⟨h.isDocument.1 hd, h.path_eq_nil.1 hp⟩
    | endMessage hp hc => exact .inl (h.one_le_depth.1 hp)
    | endNode hp hc => exact .inl (h.one_le_depth.1 hp)

theorem isComplete_close_iff (hp : a.path ≠ []) (kind : NodeKind) :
    a.close.isComplete = true ↔ (WireUnit.close kind).Ends front := by
  have hlength := h.depth
  have hopen := h.one_le_depth.1 hp
  rw [isComplete_iff, length_close, isDocument_close, WireUnit.Ends, depth_append,
    depth_singleton, WireUnit.rise, ← h.isDocument]
  cases a.isDocument <;> simp <;> omega

theorem ends (hs : a.Steps below u (.complete b)) : u.Ends front := by
  cases hs with
  | endNothing hp hd => exact .inr ⟨h.isDocument.1 hd, .inl (h.path_eq_nil.1 hp)⟩
  | endMessage hp hc => exact (h.isComplete_close_iff hp _).1 hc

theorem goes_on (hs : a.Steps below u (.more b)) :
    ¬ u.Ends front ∧ Tracks (front ++ [u]) b := by
  cases hs with
  | @document name value hb hs hn =>
    obtain rfl : front = [] := by simpa [hs] using h.started
    exact ⟨id, by simp, by simp [OpensDocument], by simpa [WireUnit.rise] using h.depth⟩
  | child hk hn =>
    refine ⟨id, h.extend (by simp [OpensDocument, hk]) rfl rfl ?_⟩
    simp [openNode, WireUnit.rise, hk]
  | sibling hk hn hp =>
    have := List.length_pos_iff.2 hp
    refine ⟨id, h.extend (by simp [OpensDocument]) rfl (isDocument_close a) ?_⟩
    simp only [openNode, List.length_cons, length_close, WireUnit.rise]
    omega
  | attr hp hn =>
    refine ⟨id, h.extend (by simp [OpensDocument]) (h.started_of_path (by simp [hp])) rfl ?_⟩
    simp [hp, WireUnit.rise]
  | endNode hp hc =>
    have := List.length_pos_iff.2 hp
    refine ⟨fun he => ?_, h.extend (by simp [OpensDocument]) ?_ (isDocument_close a) ?_⟩
    · simp [(h.isComplete_close_iff hp _).2 he] at hc
    · rw [close_started, h.started_of_path hp]
    · rw [length_close, WireUnit.rise]
      omega

end Tracks

end Assembly

/-! ## Many units -/

/-- Whether the units `us` make a message of those in front of them. -/
def FinishedBy (front us : List WireUnit) : Prop :=
  us ≠ [] ∧ ∀ before u rest, us = before ++ u :: rest →
    u.MayFollow (front ++ before) ∧ (u.Ends (front ++ before) ↔ rest = [])

theorem finishedBy_cons {front us : List WireUnit} {u : WireUnit} :
    FinishedBy front (u :: us) ↔
      u.MayFollow front ∧ (us = [] ∧ u.Ends front ∨
        ¬ u.Ends front ∧ FinishedBy (front ++ [u]) us) := by
  constructor
  · rintro ⟨-, h⟩
    obtain ⟨hmay, hends⟩ := h [] u us rfl
    rw [List.append_nil] at hmay hends
    refine ⟨hmay, ?_⟩
    by_cases hus : us = []
    · exact .inl ⟨hus, hends.2 hus⟩
    · refine .inr ⟨mt hends.1 hus, hus, fun before v rest hsplit => ?_⟩
      rw [List.append_assoc, List.singleton_append]
      exact h (u :: before) v rest (by rw [hsplit, List.cons_append])
  · rintro ⟨hmay, hus⟩
    refine ⟨List.cons_ne_nil u us, fun before v rest hsplit => ?_⟩
    rcases before with _ | ⟨w, before⟩
    · obtain ⟨rfl, rfl⟩ := List.cons.inj hsplit
      rw [List.append_nil]
      rcases hus with ⟨rfl, hends⟩ | ⟨hends, hne, -⟩
      · exact ⟨hmay, iff_of_true hends rfl⟩
      · exact ⟨hmay, iff_of_false hends hne⟩
    · obtain ⟨rfl, rfl⟩ := List.cons.inj hsplit
      rcases hus with ⟨hnil, -⟩ | ⟨-, -, h⟩
      · simp at hnil
      · have := h before v rest rfl
        rwa [List.append_assoc, List.singleton_append] at this

theorem isMessage_iff {us : List WireUnit} : IsMessage us ↔ FinishedBy [] us := by
  constructor
  · rintro ⟨⟨kind, name, value, hfirst⟩, hallowed, hstops⟩
    refine ⟨fun hnil => by simp [hnil] at hfirst, fun front u rest h => ?_⟩
    exact ⟨hallowed front u rest h, hstops front u rest h⟩
  · rintro ⟨hne, h⟩
    obtain ⟨u, us, rfl⟩ := List.exists_cons_of_ne_nil hne
    have hmay := (h [] u us rfl).1
    refine ⟨?_, fun front v rest hv => (h front v rest hv).1,
      fun front v rest hv => (h front v rest hv).2⟩
    rcases u with ⟨_ | _, kind, name, value⟩ | ⟨kind, name, value⟩ | kind
    · exact ⟨kind, name, value, rfl⟩
    all_goals simp [WireUnit.MayFollow] at hmay

/-- Units complete a message exactly if they make one of what was read in front of them. -/
theorem Assembly.Tracks.completes_iff {front : List WireUnit} {a : Assembly} (h : a.Tracks front)
    (us : List WireUnit) : (∃ b, a.Completes true us b) ↔ FinishedBy front us := by
  -- What was read grows with each unit, and the state keeps track of it.
  induction us generalizing front a with
  | nil => simp [Completes, FinishedBy]
  | cons u us ih =>
    simp only [completes_cons_iff, step_eq_ok_iff, finishedBy_cons, h.mayFollow_iff]
    constructor
    · rintro ⟨b, ⟨rfl, hs⟩ | ⟨c, hs, hc⟩⟩
      · exact ⟨⟨_, hs⟩, .inl ⟨rfl, h.ends hs⟩⟩
      · obtain ⟨hends, htracks⟩ := h.goes_on hs
        exact ⟨⟨_, hs⟩, .inr ⟨hends, (ih htracks).1 ⟨b, hc⟩⟩⟩
    · rintro ⟨⟨c | c, hs⟩, hus⟩
      · obtain ⟨hends, htracks⟩ := h.goes_on hs
        obtain ⟨-, hrest⟩ := hus.resolve_left fun hlast => hends hlast.2
        obtain ⟨b, hb⟩ := (ih htracks).2 hrest
        exact ⟨b, .inr ⟨c, hs, hb⟩⟩
      · obtain ⟨hnil, -⟩ := hus.resolve_right fun hmore => hmore.1 (h.ends hs)
        exact ⟨c, .inl ⟨hnil, hs⟩⟩

theorem Assembly.isMessage_iff_completes {us : List WireUnit} :
    IsMessage us ↔ ∃ b, start.Completes true us b :=
  isMessage_iff.trans (tracks_start.completes_iff us).symm

/-! ## Bytes -/

namespace Wire

/-- The bytes in which a message is found are those of units that make up one, with any others
behind them. The message is then read up to the last of its bytes, and what it holds does not
depend on those behind. All other bytes are refused for being malformed. -/
theorem decodeDocument_grammar :
    (∀ b : Bytes, (∃ t rest, decodeDocument b = (.ok t, rest)) ↔
      ∃ us rest, (∀ u ∈ us, u.Fits) ∧ IsMessage us ∧ b = us.flatMap WireUnit.bytes ++ rest) ∧
    (∀ us : List WireUnit, (∀ u ∈ us, u.Fits) → IsMessage us →
      ∃ t, ∀ rest, decodeDocument (us.flatMap WireUnit.bytes ++ rest) = (.ok t, rest)) ∧
    ∀ (b : Bytes) (e : Fault) (rest : Bytes), decodeDocument b = (.error e, rest) →
      ∃ cause, e = .malformed cause := by
  have reads (us : List WireUnit) (hfits : ∀ u ∈ us, u.Fits) (hus : IsMessage us) :
      ∃ t, ∀ rest, decodeDocument (us.flatMap WireUnit.bytes ++ rest) = (.ok t, rest) := by
    obtain ⟨a, ha⟩ := Assembly.isMessage_iff_completes.1 hus
    refine ⟨⟨.document, a.forest⟩, fun rest => ?_⟩
    rw [decodeDocument_eq, bind_of_ok (assembled_eq_ok_iff.2 ⟨us, hfits, ha, rfl⟩)]
    rfl
  refine ⟨fun b => ⟨?_, ?_⟩, reads, fun b => blames_decodeDocument b⟩
  · rintro ⟨t, rest, h⟩
    rw [decodeDocument_eq] at h
    obtain ⟨a, s, ha, ht⟩ := Reading.bind_eq_ok.1 h
    obtain ⟨us, hfits, hcompletes, rfl⟩ := assembled_eq_ok_iff.1 ha
    exact ⟨us, s, hfits, Assembly.isMessage_iff_completes.2 ⟨a, hcompletes⟩, rfl⟩
  · rintro ⟨us, rest, hfits, hus, rfl⟩
    obtain ⟨t, ht⟩ := reads us hfits hus
    exact ⟨t, rest, ht rest⟩

/-- An element with a text below it. -/
def sampleUnits : List WireUnit :=
  [.node .child .element "a" "x", .node .child .data "" "y", .close .element]

theorem decodeDocument_grammar_sample :
    ((∀ u ∈ sampleUnits, u.Fits) ∧ IsMessage sampleUnits) ∧
      (∃ t, ∀ rest, decodeDocument (sampleUnits.flatMap WireUnit.bytes ++ rest) = (.ok t, rest)) ∧
      ∃ e, decodeDocument ([] : Bytes) = (.error e, []) ∧ ∃ cause, e = .malformed cause := by
  have hfits : ∀ u ∈ sampleUnits, u.Fits := by
    have hshort : Short "a" ∧ Short "x" ∧ Short "" ∧ Short "y" := by
      unfold Short
      decide
    simp [sampleUnits, WireUnit.Fits, hshort]
  have hus : IsMessage sampleUnits := by
    simp [isMessage_iff, finishedBy_cons, sampleUnits, WireUnit.MayFollow, WireUnit.Ends,
      OpensDocument, depth, WireUnit.rise]
  have hempty : decodeDocument ([] : Bytes) = (.error (.malformed .truncated), []) :=
    decodeDocument_of_error rfl
  exact ⟨⟨hfits, hus⟩, decodeDocument_grammar.2.1 sampleUnits hfits hus, _, hempty,
    decodeDocument_grammar.2.2 [] _ [] hempty⟩

end Wire

end Treegram
