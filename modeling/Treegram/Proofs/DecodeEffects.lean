import Treegram.Proofs.CursorReading

/-!
# What reading a message does, and what it leaves alone

Whatever is read below a live node, and whether it is a message or not, only puts nodes behind the
children of that node (`decode_only_appends`). The cursor ends up with the nodes that were put
together apart from the document (`Holds.decode`), so what it leaves is the old document with these
trees grafted on; and the trees hold only nodes that may be read.
-/

namespace Treegram

/-! ## New nodes -/

theorem Forest.exists_label_of_view? {id : NodeId} {v : NodeView} :
    ∀ {f : Forest Node} {parent : Option NodeId}, f.view? id parent = some v →
      ∃ n ∈ f.nodes, n.label = v.label
  | .cons n kids rest, parent, h => by
    rw [view?] at h
    simp only [nodes, List.mem_cons, List.mem_append, or_and_right, exists_or, exists_eq_left]
    split at h
    · obtain rfl := Option.some.inj h
      exact .inl rfl
    · rcases Option.or_eq_some_iff.1 h with h | ⟨-, h⟩
      · exact .inr (.inl (exists_label_of_view? h))
      · exact .inr (.inr (exists_label_of_view? h))

/-- What is told of the nodes at the top of a forest. -/
theorem Forest.view?_tops {id : NodeId} {parent : Option NodeId} : ∀ {f : Forest Node},
    f.ids.Nodup → id ∈ f.tops → ∃ v, f.view? id parent = some v ∧ v.parent = parent
  | .cons n kids rest, hd, hid => by
    rw [view?]
    split
    · exact ⟨_, rfl, rfl⟩
    · rename_i hne
      rw [ids_cons, List.nodup_cons, List.nodup_append'] at hd
      rw [tops, List.mem_cons, or_iff_right (Ne.symm hne)] at hid
      rw [view?_of_not_mem fun hkids => hd.2.2.2 hkids (rest.tops_subset hid), Option.none_or]
      exact view?_tops hd.2.2.1 hid

theorem Document.mem_of_view?_number {f : Forest Label} {s : Slots} {id : NodeId}
    {parent : Option NodeId} {v : NodeView} (h : (number s f).1.view? id parent = some v) :
    v.label ∈ f.nodes := by
  obtain ⟨n, hn, hlabel⟩ := Forest.exists_label_of_view? h
  rw [← map_label_number f s, Forest.mem_nodes_map]
  exact ⟨n, hn, hlabel⟩

theorem Document.eq_of_forest {d d' : Document} (hf : d.forest = d'.forest)
    (hslots : d.slots = d'.slots) (hstrays : d.strays = d'.strays) : d = d' := by
  rcases d with ⟨⟨n, kids⟩, slots, strays⟩
  rcases d' with ⟨⟨n', kids'⟩, slots', strays'⟩
  obtain ⟨rfl, rfl, -⟩ := Forest.cons.inj hf
  obtain rfl := hslots
  obtain rfl := hstrays
  rfl

/-! ## The document behind the cursor -/

/-- What comes of a message read below `parent`, if the first new node is `first`. -/
def Decoded.result (m : Decoded) (parent first : NodeId) : Except Fault NodeId :=
  match m.fault with
  | some e => .error e
  | none => .ok (if m.isDocument then parent else first)

theorem Wire.decodeInto_of_graft {σ : Type} [ByteSource σ] {d d' : Document} {parent : NodeId}
    {t : Tree Node} {s : σ} (ht : d.subtree parent = .ok t)
    (hd' : d.graft parent (decode (t.node.label.kind == .document) s).1.forest = .ok d') :
    decodeInto d parent s =
      .ok ((d', (decode (t.node.label.kind == .document) s).1.result parent ⟨d.slots.next⟩),
        (decode (t.node.label.kind == .document) s).2) := by
  rw [decodeInto, ht]
  simp only [bind, Except.bind, hd']
  rfl

namespace LinkedDocument

variable {c : LinkedDocument} {d : Document} {s : Spot} {n : Node} {front kids back : Forest Node}

/-- The cursor starts at the node the message is read below. -/
theorem Holds.follows_start (h : c.Holds d) (hf : d.forest = s.fill (front ++ .cons n kids back)) :
    (Cursor.start c n.id).Follows c d ⟨.under n front back s, kids, d.slots⟩ n.id .start where
  grown := by
    rw [Assembly.site_start]
    exact ⟨d, .refl c d, h, hf, rfl⟩
  node := rfl
  level := rfl
  limit := rfl
  first := rfl
  start _ := rfl
  top := rfl

/-- The cursor leaves the nodes of the document that the message is put into as a whole, and has the
same result. -/
theorem Holds.decode {σ : Type} [ByteSource σ] (h : c.Holds d)
    (hf : d.forest = s.fill (front ++ .cons n kids back)) (bytes : σ) :
    let m := Wire.decode (n.label.kind == .document) bytes
    let result := m.1.result n.id ⟨d.slots.next⟩
    ∃ c' d', c.decode n.id bytes = some ((c', result.mapError .fault), m.2) ∧
      Wire.decodeInto d n.id bytes = .ok ((d', result), m.2) ∧ Grows c d c' d' ∧ c'.Holds d' ∧
      d'.forest = s.fill (front ++
        .cons n (kids ++ (Document.number d.slots m.1.forest).1) back) := by
  intro m result
  obtain ⟨k, hk, hfollows⟩ := (h.follows_start hf).read rfl rfl bytes
  obtain ⟨hsite, hsite'⟩ := Assembly.site_forest ⟨.under n front back s, kids, d.slots⟩
    (Wire.assemble (n.label.kind == .document) .start bytes).1.1
  obtain ⟨d', hgrows, hholds, hforest, hslots⟩ := hfollows.grown.congr hsite hsite'
  -- what the cursor has made one by one is what is grafted on at once
  obtain ⟨d₁, hd₁, hstrays₁, hslots₁, hforest₁⟩ := h.graft hf m.1.forest
  obtain rfl : d' = d₁ := Document.eq_of_forest (hforest.trans hforest₁.symm)
    (hslots.trans hslots₁.symm) (hholds.strays.trans hstrays₁.symm)
  refine ⟨k.document, d', hk.trans ?_, ?_, hgrows, hholds, hforest₁⟩
  · dsimp only [result, m, Wire.decode, Decoded.result]
    rcases (Wire.assemble (n.label.kind == .document) .start bytes).1.2 with _ | e <;> rfl
  · have hsubtree : d.subtree n.id = .ok ⟨n, kids⟩ := by rw [Document.subtree, h.subtree? hf]
    exact Wire.decodeInto_of_graft hsubtree hd₁

end LinkedDocument

/-! ## The first new node -/

theorem Assembly.Completes.ne_nil {below : Bool} {us : List WireUnit} {a b : Assembly}
    (h : a.Completes below us b) : us ≠ [] := by
  rintro rfl
  simp [Completes] at h

/-- A message is that of a document exactly if a document unit comes first. -/
theorem Assembly.Completes.isDocument_iff {below : Bool} {front us : List WireUnit}
    {a b : Assembly} (h : a.Completes below us b) (ht : Tracks front a) :
    b.isDocument = true ↔ OpensDocument (front ++ us) := by
  induction us generalizing front a with
  | nil => exact absurd rfl h.ne_nil
  | cons u us ih =>
    simp only [completes_cons_iff, step_eq_ok_iff] at h
    rcases h with ⟨rfl, hs⟩ | ⟨c, hs, hc⟩
    · cases hs with
      | endNothing hp hd =>
        rw [opensDocument_append_singleton front (by simp [OpensDocument]), ht.isDocument]
      | endMessage hp hc =>
        rw [opensDocument_append_singleton front (by simp [OpensDocument]), isDocument_close,
          ht.isDocument]
    · rw [ih hc (ht.goes_on hs).2, List.append_assoc]
      rfl

/-- A document unit has a first byte of its own. -/
theorem WireUnit.head?_bytes_iff (u : WireUnit) (rest : Bytes) :
    (u.bytes ++ rest).head? = some (Control.newChild.byte NodeKind.document.tag) ↔
      OpensDocument [u] := by
  rcases u with ⟨_ | _, kind, name, value⟩ | ⟨kind, name, value⟩ | kind <;> cases kind <;>
    simp [bytes, OpensDocument, Place.control, Control.byte, Control.bits, NodeKind.tag]

theorem Wire.assembled_of_decode {below : Bool} {s : Bytes}
    (h : (decode below s).1.fault = none) :
    ∃ a, assembled below .start s = (.ok a, (decode below s).2) ∧
      (decode below s).1 = ⟨a.forest, a.isDocument, none⟩ := by
  unfold decode assembled
  rcases hm : assemble below .start s with ⟨⟨a, fault⟩, s'⟩
  have hfault : (assemble below .start s).1.2 = none := h
  rw [hm] at hfault
  obtain rfl : fault = none := hfault
  exact ⟨a, rfl, rfl⟩

/-- A message that was read to its end starts with a document unit, or else with the unit of a node
at the top. -/
theorem Wire.decode_first {below : Bool} {s : Bytes} (h : (decode below s).1.fault = none) :
    ((decode below s).1.isDocument = true ↔
        s.head? = some (Control.newChild.byte NodeKind.document.tag)) ∧
      ((decode below s).1.isDocument = false →
        ∃ k, (decode below s).1.forest.trees.length = k + 1) := by
  obtain ⟨a, ha, hm⟩ := assembled_of_decode h
  obtain ⟨us, -, hcompletes, hs⟩ := assembled_eq_ok_iff.1 ha
  have hdoc : a.isDocument = true ↔ OpensDocument us :=
    hcompletes.isDocument_iff Assembly.tracks_start
  rw [hm, hs]
  constructor
  · obtain ⟨u, us, rfl⟩ := List.exists_cons_of_ne_nil hcompletes.ne_nil
    rw [List.flatMap_cons, List.append_assoc, WireUnit.head?_bytes_iff]
    exact hdoc
  · intro hfalse
    rw [← Bool.not_eq_true, hdoc] at hfalse
    exact ⟨_, (hcompletes.length_trees hfalse).1⟩

/-- The result of a message is the first new node at the top, or the node it is read below. -/
theorem Wire.top_of_result {below : Bool} {s : Bytes} {slots : Slots} {parent top : NodeId}
    (h : (decode below s).1.result parent ⟨slots.next⟩ = .ok top) :
    if s.head? = some (Control.newChild.byte NodeKind.document.tag) then top = parent
    else (Document.number slots (decode below s).1.forest).1.tops.head? = some top := by
  rw [Decoded.result] at h
  rcases hfault : (decode below s).1.fault with _ | e <;> rw [hfault] at h
  · obtain ⟨hdoc, htrees⟩ := decode_first hfault
    have htop := Except.ok.inj h
    simp only [← hdoc]
    by_cases hisDocument : (decode below s).1.isDocument = true
    · rw [if_pos hisDocument] at htop ⊢
      exact htop.symm
    · obtain ⟨k, hk⟩ := htrees (Bool.eq_false_iff.2 hisDocument)
      obtain ⟨more, htops, -⟩ := Document.exists_tops_number slots hk
      rw [if_neg hisDocument] at htop ⊢
      rw [htops, ← htop]
      rfl
  · simp at h

/-! ## Effects -/

/-- Whether the nodes `new`, with all that is below them, were put behind the children of `parent`,
and each of them is one that may be read. -/
structure Extends (v v' : NodeId → Option NodeView) (parent : NodeId) (new : List NodeId) :
    Prop where
  above : ∃ p, v parent = some p ∧ v' parent = some { p with children := p.children ++ new }
  kept : ∀ k n, v k = some n → k ≠ parent → v' k = some n
  fresh : ∀ k ∈ new, v k = none
  placed : ∀ k ∈ new, ∃ n, v' k = some n ∧ n.parent = some parent
  allowed : ∀ k n, v k = none → v' k = some n → n.label.kind ≠ .document ∧
    (n.label.name ≠ "" ↔ n.label.kind = .element ∨ n.label.kind = .pi) ∧
      ∀ a ∈ n.label.attributes, a.name ≠ ""

theorem Grafts.extends_tops {v v' : NodeId → Option NodeView} {parent : NodeId} {f : Forest Label}
    {slots : Slots} (h : Grafts v v' parent (Document.number slots f).1)
    (hnodup : (Document.number slots f).1.ids.Nodup) (hf : ∀ l ∈ f.nodes, l.SendableBelow) :
    Extends v v' parent (Document.number slots f).1.tops := by
  have hkept : ∀ k n, v k = some n → k ∉ (Document.number slots f).1.ids := fun k n hk hmem => by
    simp [h.fresh k hmem] at hk
  refine ⟨h.above, fun k n hk hkp => ?_, fun k hk => h.fresh k (Forest.tops_subset _ hk),
    fun k hk => ?_, fun k n hk hk' => ?_⟩
  · rw [h.other k (hkept k n hk) hkp, hk]
  · rw [h.new k (Forest.tops_subset _ hk)]
    exact Forest.view?_tops hnodup hk
  -- a node that was dead before is one of the new trees, since `parent` was not
  · have hmem : k ∈ (Document.number slots f).1.ids := by
      by_contra hmem
      obtain ⟨p, hp, -⟩ := h.above
      have hkp : k ≠ parent := by
        rintro rfl
        simp [hk] at hp
      simp [h.other k hmem hkp, hk] at hk'
    rw [h.new k hmem] at hk'
    obtain ⟨hkind, hl⟩ := hf _ (Document.mem_of_view?_number hk')
    exact ⟨hkind, nameFault?_eq_none_iff.1 hl.named, fun a ha => (hl.attributes a ha).1⟩

namespace LinkedDocument

/-- Whether reading a message from the bytes `s` below `parent` did no more than to put nodes behind
the children of `parent`. If all went well, the first of them is the result, or `parent` for a
message that starts with a document unit. -/
structure DecodedOnto (c c' : LinkedDocument) (parent : NodeId) (s : Bytes)
    (result : Except Halt NodeId) : Prop where
  appended : ∃ new, Extends c.view c'.view parent new ∧ ∀ top, result = .ok top →
    if s.head? = some (Control.newChild.byte NodeKind.document.tag) then top = parent
    else new.head? = some top
  wellLinked : c'.WellLinked
  inside : result ≠ .error .aboveTop

variable {c : LinkedDocument} {d : Document} {parent : NodeId}

theorem Holds.decodedOnto (h : c.Holds d) (hp : d.contains parent = true) (s : Bytes) :
    ∃ c' d' result rest, c.decode parent s = some ((c', Except.mapError .fault result), rest) ∧
      Wire.decodeInto d parent s = .ok ((d', result), rest) ∧ c'.Shows d' ∧ Grows c d c' d' ∧
      c.DecodedOnto c' parent s (result.mapError .fault) := by
  obtain ⟨spot, front, n, kids, back, rfl, hf⟩ := Spot.exists_fill ((h.contains parent).1 hp)
  obtain ⟨c', d', hc', hd', hgrows, h', hf'⟩ := h.decode hf s
  set m := Wire.decode (n.label.kind == .document) s
  set f := (Document.number d.slots m.1.forest).1
  have hnodup := h.nodup
  have hnodup' := h'.nodup
  rw [hf] at hnodup
  rw [hf'] at hnodup'
  refine ⟨c', d', _, m.2, hc', hd', h'.shows, hgrows, ⟨f.tops, ?_, ?_⟩, h'.wellLinked, ?_⟩
  -- the spot below `n` held the old children and holds them and the new trees
  · have hgrafts : Grafts c.view c'.view n.id f := by
      rw [h.shows.view, h'.shows.view, h.view, h'.view, hf, hf']
      exact Spot.grafts (s := .under n front back spot) hnodup hnodup' rfl
    refine hgrafts.extends_tops ?_ (Wire.sendable_decode _ s)
    obtain ⟨-, hd, -⟩ := (Spot.nodup_fill (s := .under n front back spot)).1 hnodup'
    rw [Forest.ids_append, List.nodup_append'] at hd
    exact hd.2.1
  · intro top htop
    refine Wire.top_of_result ?_
    rcases hresult : m.1.result n.id ⟨d.slots.next⟩ with e | top' <;> rw [hresult] at htop
    · simp [Except.mapError] at htop
    · rw [Except.ok.inj htop]
  · cases m.1.result n.id ⟨d.slots.next⟩ <;> simp [Except.mapError]

/-- Whatever was done to a document before and whatever bytes are read below a live node of it, the
nodes that are read are put behind the children of that node, by edits that add, and nothing else
changes. -/
theorem decode_only_appends (es : List Edit) (h : Document.empty.acceptsAll es = true)
    (hp : (es.foldl Document.edit .empty).contains parent = true) (s : Bytes) :
    let d := es.foldl Document.edit .empty
    ∃ c c' d' result rest, empty.run es = some c ∧ c.Shows d ∧
      c.decode parent s = some ((c', Except.mapError .fault result), rest) ∧
      Wire.decodeInto d parent s = .ok ((d', result), rest) ∧ c'.Shows d' ∧ Grows c d c' d' ∧
      c.DecodedOnto c' parent s (result.mapError .fault) := by
  intro d
  obtain ⟨c, hc, hholds⟩ := holds_empty.run h
  obtain ⟨c', d', result, rest, hdecoded⟩ := hholds.decodedOnto hp s
  exact ⟨c, c', d', result, rest, hc, hholds.shows, hdecoded⟩

/-- Below an element whose neighbour was removed, a message leaves two nodes beside each other. -/
theorem decode_only_appends_twins : Document.empty.acceptsAll reuse = true ∧
    (reuse.foldl Document.edit .empty).contains ⟨3⟩ = true ∧
    let d := reuse.foldl Document.edit .empty
    ∃ c c' d' result rest, empty.run reuse = some c ∧ c.Shows d ∧
      c.decode ⟨3⟩ (Wire.twins.flatMap WireUnit.bytes) =
        some ((c', Except.mapError .fault result), rest) ∧
      Wire.decodeInto d ⟨3⟩ (Wire.twins.flatMap WireUnit.bytes) = .ok ((d', result), rest) ∧
      c'.Shows d' ∧ Grows c d c' d' ∧
      c.DecodedOnto c' ⟨3⟩ (Wire.twins.flatMap WireUnit.bytes) (result.mapError .fault) ∧
      result = .ok ⟨4⟩ ∧ c'.view ⟨3⟩ = some ⟨.element "d" "", some ⟨0⟩, [⟨1⟩, ⟨4⟩, ⟨5⟩]⟩ ∧
      c'.view ⟨4⟩ = some ⟨.element "a" "", some ⟨3⟩, []⟩ ∧
      c'.view ⟨5⟩ = some ⟨.element "b" "", some ⟨3⟩, []⟩ := by
  have hlives : (reuse.foldl Document.edit .empty).contains ⟨3⟩ = true := by decide
  refine ⟨by decide, hlives, ?_⟩
  obtain ⟨c, c', d', result, rest, hc, hshows, hdecode, hd', hshows', hgrows, honto⟩ :=
    decode_only_appends reuse (by decide) hlives (Wire.twins.flatMap WireUnit.bytes)
  have hread := Wire.decodeInto_twins (d := reuse.foldl Document.edit .empty) ⟨3⟩ rfl rfl
  obtain ⟨⟨rfl, rfl⟩, -⟩ := Prod.mk.inj (Except.ok.inj (hd'.symm.trans hread))
  refine ⟨c, c', _, _, rest, hc, hshows, hdecode, hd', hshows', hgrows, honto, rfl, ?_⟩
  rw [hshows'.view]
  exact ⟨rfl, rfl, rfl⟩

end LinkedDocument

end Treegram
