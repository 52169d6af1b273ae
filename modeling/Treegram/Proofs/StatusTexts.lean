import Treegram.Proofs.ComposedPaths
import Treegram.Proofs.DocumentLinks
import Treegram.Status.Linked

/-!
# The text of a status

The text of a status is that of the element that holds it, in which each reference is replaced, once
and from left to right, by the value of an `argument` element of the response (`text_exact`). The
search for those elements along the links meets each of them once, whatever stands between them, so
the status is the same along the links as in the tree (`Standing.status`).
-/

namespace Treegram

namespace Reference

/-- Whether the second text is the first with each reference replaced by the argument it selects,
or dropped if there is none. An argument goes in as it is. -/
inductive Expands (args : List String) : List Char → List Char → Prop
  | done : Expands args [] []
  | select {i : Nat} {c : Char} {arg : String} {cs out : List Char} : i < 64 →
    c.toNat = 0xE000 + i → args[i]? = some arg → Expands args cs out →
    Expands args (c :: cs) (arg.toList ++ out)
  | drop {i : Nat} {c : Char} {cs out : List Char} : i < 64 → c.toNat = 0xE000 + i →
    args.length ≤ i → Expands args cs out → Expands args (c :: cs) out
  | keep {c : Char} {cs out : List Char} : (∀ i < 64, c.toNat ≠ 0xE000 + i) →
    Expands args cs out → Expands args (c :: cs) (c :: out)

variable {args : List String} {c : Char} {cs out : List Char} {i : Nat}

theorem index?_eq_some_iff : index? c = some i ↔ i < 64 ∧ c.toNat = 0xE000 + i := by
  unfold index? base count
  split
  · rw [Option.some.injEq]
    omega
  · simp only [reduceCtorEq, false_iff]
    omega

theorem index?_eq_none_iff : index? c = none ↔ ∀ i < 64, c.toNat ≠ 0xE000 + i := by
  rw [Option.eq_none_iff_forall_ne_some]
  simp only [ne_eq, index?_eq_some_iff, not_and]

theorem replacement_of_ref (hi : i < 64) (hc : c.toNat = 0xE000 + i) :
    replacement args c = (args[i]?.getD "").toList := by
  rw [replacement, index?_eq_some_iff.2 ⟨hi, hc⟩, ← List.getD_eq_getElem?_getD]

theorem replacement_of_plain (hc : ∀ i < 64, c.toNat ≠ 0xE000 + i) : replacement args c = [c] := by
  rw [replacement, index?_eq_none_iff.2 hc]

theorem expands_flatMap (args : List String) :
    ∀ cs, Expands args cs (cs.flatMap (replacement args))
  | [] => .done
  | c :: cs => by
    have ih := expands_flatMap args cs
    rw [List.flatMap_cons]
    by_cases hc : ∃ i < 64, c.toNat = 0xE000 + i
    · obtain ⟨i, hi, hc⟩ := hc
      rw [replacement_of_ref hi hc]
      rcases harg : args[i]? with _ | arg
      · exact .drop hi hc (List.getElem?_eq_none_iff.1 harg) ih
      · exact .select hi hc harg ih
    · have hplain : ∀ i < 64, c.toNat ≠ 0xE000 + i := fun i hi h => hc ⟨i, hi, h⟩
      rw [replacement_of_plain hplain]
      exact .keep hplain ih

theorem Expands.eq_flatMap (h : Expands args cs out) : out = cs.flatMap (replacement args) := by
  induction h with
  | done => rfl
  | select hi hc harg _ ih => rw [List.flatMap_cons, replacement_of_ref hi hc, harg, ih]; rfl
  | drop hi hc harg _ ih =>
    rw [List.flatMap_cons, replacement_of_ref hi hc, List.getElem?_eq_none harg, ih]
    rfl
  | keep hc _ ih => rw [List.flatMap_cons, replacement_of_plain hc, ih]; rfl

theorem expands_iff {text : String} :
    Expands args text.toList out ↔ out = (expand args text).toList := by
  rw [expand, String.toList_ofList]
  exact ⟨Expands.eq_flatMap, fun h => h ▸ expands_flatMap args text.toList⟩

theorem expand_append (args : List String) (s t : String) :
    expand args (s ++ t) = expand args s ++ expand args t := by
  rw [expand, String.toList_append, List.flatMap_append, String.ofList_append]
  rfl

theorem expand_plain {text : String} (h : ∀ c ∈ text.toList, ∀ i < 64, c.toNat ≠ 0xE000 + i) :
    expand args text = text := by
  have hplain : text.toList.flatMap (replacement args) = text.toList.flatMap fun c => [c] :=
    List.flatMap_congr fun c hc => replacement_of_plain (h c hc)
  rw [expand, hplain, List.flatMap_singleton', String.ofList_toList]

theorem put_eq (args : List String) (out : String) (c : Char) :
    put args out c = out ++ String.ofList (replacement args c) := by
  have hrange : (first ≤ c ∧ c ≤ last) ↔ 0xE000 ≤ c.toNat ∧ c.toNat ≤ 0xE03F := Iff.rfl
  have hfirst : first.toNat = 0xE000 := rfl
  by_cases hc : first ≤ c ∧ c ≤ last
  · have hi := hrange.1 hc
    have hreplacement : replacement args c = (args[c.toNat - first.toNat]?.getD "").toList :=
      replacement_of_ref (by omega) (by omega)
    rw [put, if_pos hc, hreplacement, String.ofList_toList]
    rcases args[c.toNat - first.toNat]? with _ | arg
    · exact String.append_empty.symm
    · rfl
  · rw [put, if_neg hc, replacement_of_plain fun i hi h => hc (hrange.2 (by omega))]
    rfl

theorem foldl_put (args : List String) : ∀ (cs : List Char) (out : String),
    cs.foldl (put args) out = out ++ String.ofList (cs.flatMap (replacement args))
  | [], out => by simp
  | c :: cs, out => by
    rw [List.foldl_cons, foldl_put args cs, put_eq, List.flatMap_cons, String.ofList_append,
      String.append_assoc]

theorem rewrite_eq (args : List String) (text : String) : rewrite args text = expand args text := by
  rw [rewrite, foldl_put, String.empty_append]
  rfl

end Reference

/-! ## Elements of a response -/

namespace Forest

theorem trees_map {α β : Type} (g : α → β) : ∀ f : Forest α,
    (f.map g).trees = f.trees.map (Tree.map g)
  | .nil => rfl
  | .cons a kids rest => by
    rw [map, trees, trees, List.map_cons, trees_map g rest]
    rfl

end Forest

namespace Tree

variable {α : Type} [Labelled α] (t : Tree α) (name : String)

theorem childNamed?_labels :
    t.labels.childNamed? name = (t.childNamed? name).map Tree.labels := by
  rw [childNamed?, childNamed?, Forest.element?_eq_find?, Forest.element?_eq_find?]
  show ((t.children.map label).trees.find? _) = _
  rw [Forest.trees_map, List.find?_map]
  rfl

theorem childrenNamed_labels :
    t.labels.childrenNamed name = (t.childrenNamed name).map Tree.labels := by
  show (t.children.map label).trees.filter _ = _
  rw [Forest.trees_map, List.filter_map]
  rfl

/-- The severity that an attribute tells: `yes` if it is set, else `no`. -/
def severity? (yes no : Severity) : Option Severity :=
  ((t.attribute? name).bind flag?).map fun set => if set then yes else no

theorem severity?_map {β : Type} (b : β) (yes no : Severity) :
    (t.severity? name yes no).map (fun severity => (b, severity)) = (do
      let set ← flag? (← t.attribute? name)
      return (b, if set then yes else no)) := by
  rw [severity?, Option.map_map, Option.bind_eq_bind]
  rcases t.attribute? name with _ | value
  · rfl
  · rw [Option.bind_some, Option.bind_some]
    rcases flag? value with _ | set <;> rfl

theorem arguments_labels :
    Status.arguments t.labels = (t.childrenNamed "argument").map Tree.value := by
  rw [Status.arguments, childrenNamed_labels, List.map_map]
  rfl

end Tree

theorem Status.holder?_eq (response : Tree Label) : holder? response =
    match response.childNamed? "message" with
    | some t => (t.severity? "warning" .warning .info).map fun severity => (t, severity)
    | none => (response.childNamed? "error").bind fun t =>
      (t.severity? "critical" .critical .error).map fun severity => (t, severity) := by
  simp only [holder?, Tree.severity?_map]
  rfl

theorem Status.or_of_holder? {response holder : Tree Label} {severity : Severity}
    (h : holder? response = some (holder, severity)) :
    (response.childNamed? "message").or (response.childNamed? "error") = some holder := by
  rw [holder?_eq] at h
  rcases hmessage : response.childNamed? "message" with _ | t <;> rw [hmessage] at h
  · obtain ⟨t, ht, h⟩ := Option.bind_eq_some_iff.1 h
    obtain ⟨_, -, ⟨⟩⟩ := Option.map_eq_some_iff.1 h
    exact ht
  · obtain ⟨_, -, ⟨⟩⟩ := Option.map_eq_some_iff.1 h
    rfl

variable {c : LinkedDocument} {t : Tree Node}

/-- The search that goes on behind what it found meets all elements of the name. -/
theorem Joined.pushValues (name : String) : ∀ {f : Forest Node} {parent previous : Option NodeId}
    (values : List String), Joined c.get? parent previous none f →
      (c.elementFrom name f.firstId? >>= c.pushValues name values) = some
        (values ++ (f.trees.filter fun u => (label u.node).isElement name).map Tree.value)
  | .nil, _, _, values, _ => by
    rw [Forest.firstId?, LinkedDocument.elementFrom]
    simp [LinkedDocument.pushValues, Forest.trees]
  | .cons n kids rest, _, _, values, ⟨hn, _, hrest⟩ => by
    rw [Forest.firstId?, LinkedDocument.elementFrom, hn, Forest.trees]
    simp only [Option.bind_eq_bind, Option.bind_some, Option.or_none]
    by_cases hname : n.label.isElement name = true
    · have ih := hrest.pushValues name (values ++ [n.label.value])
      rw [if_pos hname, List.filter_cons_of_pos (by exact hname), List.map_cons, Option.bind_some,
        LinkedDocument.pushValues, LinkedDocument.nextSiblingNamed, hn]
      rw [List.append_assoc] at ih
      simp only [Option.bind_eq_bind, Option.bind_some, Option.or_none]
      exact ih
    · rw [if_neg hname, List.filter_cons_of_neg (by exact hname)]
      exact hrest.pushValues name values

theorem Standing.arguments {u : Tree Node} (h : Standing c.get? t) (hu : u ∈ t.children.trees) :
    c.arguments u.node.id = some ((t.childrenNamed "argument").map Tree.value) := by
  have hid : u.node.id ∈ t.children.tops := by
    rw [Forest.tops_eq_map]
    exact List.mem_map_of_mem hu
  have hparent := h.2.parentOf u.node.id hid
  obtain ⟨n, hn, hparent⟩ := Option.map_eq_some_iff.1 hparent
  obtain ⟨⟨_, _, _, ht⟩, hkids⟩ := h
  rw [LinkedDocument.arguments, hn]
  simp only [Option.bind_eq_bind, Option.bind_some, hparent, LinkedDocument.firstChildNamed, ht]
  exact hkids.pushValues "argument" []

theorem Standing.graded (h : Standing c.get? t) (name : String) (yes no : Severity) :
    c.graded t.node.id name yes no =
      some ((t.severity? name yes no).map fun severity => (t.node.id, severity)) := by
  obtain ⟨⟨_, _, _, hn⟩, -⟩ := h
  rw [LinkedDocument.graded, hn, Tree.severity?_map]
  rfl

/-- Where there is a status, a child of the response holds it, and the same one along the links. -/
theorem Standing.holder (h : Standing c.get? t) :
    (Status.holder? t.labels = none ∧ c.holder t.node.id = some none) ∨
      ∃ u ∈ t.children.trees, ∃ severity, Standing c.get? u ∧
        Status.holder? t.labels = some (u.labels, severity) ∧
        c.holder t.node.id = some (some (u.node.id, severity)) := by
  rw [LinkedDocument.holder, Status.holder?_eq, Tree.childNamed?_labels, Tree.childNamed?_labels,
    h.firstChildNamed, h.firstChildNamed]
  have hlabels (u : Tree Node) (name : String) (yes no : Severity) :
      u.labels.severity? name yes no = u.severity? name yes no := rfl
  rcases hmessage : t.childNamed? "message" with _ | u
  · rcases herror : t.childNamed? "error" with _ | u
    · exact .inl ⟨rfl, rfl⟩
    · obtain ⟨hu, hstanding⟩ := h.of_childNamed? herror
      simp only [Option.map_none, Option.map_some, Option.bind_eq_bind, Option.bind_some,
        hstanding.graded, hlabels]
      rcases u.severity? "critical" .critical .error with _ | severity
      · exact .inl ⟨rfl, rfl⟩
      · exact .inr ⟨u, hu, severity, hstanding, rfl, rfl⟩
  · obtain ⟨hu, hstanding⟩ := h.of_childNamed? hmessage
    simp only [Option.map_some, Option.bind_eq_bind, Option.bind_some, hstanding.graded,
      hlabels]
    rcases u.severity? "warning" .warning .info with _ | severity
    · exact .inl ⟨rfl, rfl⟩
    · exact .inr ⟨u, hu, severity, hstanding, rfl, rfl⟩

theorem Standing.status (h : Standing c.get? t) (reply : Nat) :
    c.status t.node.id reply = some (Status.extract t.labels reply) := by
  rw [LinkedDocument.status, Status.extract]
  rcases h.holder with ⟨ht, hc⟩ | ⟨u, hu, severity, ⟨⟨_, _, _, hn⟩, -⟩, ht, hc⟩
  · rw [ht, hc]
    rfl
  · rw [ht, hc, Tree.arguments_labels]
    simp only [Option.bind_eq_bind, Option.bind_some, LinkedDocument.build, hn, h.arguments hu,
      Reference.rewrite_eq]
    rfl

/-! ## The text -/

/-- Whether expanding is one pass over a text: what comes of it does not depend on what comes of
the text before and behind. -/
structure Reference.IsSinglePass (expand : List String → String → String) : Prop where
  expands_iff : ∀ args text out,
    Expands args text.toList out ↔ out = (expand args text).toList
  append : ∀ args s t, expand args (s ++ t) = expand args s ++ expand args t
  plain : ∀ args text, (∀ c ∈ text.toList, ∀ i < 64, c.toNat ≠ 0xE000 + i) →
    expand args text = text

/-- Whether `text` is what the first `message` element of a response says, or if there is none, the
first `error` element, with the values of the `argument` elements put in and the end cut off behind
1024 bytes. -/
def Tree.Says {α : Type} [Labelled α] (response : Tree α) (text : String) : Prop :=
  ∃ holder expanded,
    (response.childNamed? "message").or (response.childNamed? "error") = some holder ∧
    Reference.Expands ((response.childrenNamed "argument").map Tree.value) holder.value.toList
      expanded ∧
    text = abridge 1024 (String.ofList expanded)

theorem Tree.Says.of_labels {α : Type} [Labelled α] {response : Tree α} {text : String}
    (h : response.labels.Says text) : response.Says text := by
  obtain ⟨holder, expanded, hholder, hexpands, rfl⟩ := h
  rw [childNamed?_labels, childNamed?_labels, ← Option.map_or] at hholder
  obtain ⟨u, hu, rfl⟩ := Option.map_eq_some_iff.1 hholder
  rw [childrenNamed_labels, List.map_map] at hexpands
  exact ⟨u, expanded, hu, hexpands, rfl⟩

theorem Reference.isSinglePass_expand : IsSinglePass expand where
  expands_iff _ _ _ := Reference.expands_iff
  append := expand_append
  plain _ _ := expand_plain

theorem Reference.isSinglePass_rewrite : IsSinglePass rewrite := by
  have h : rewrite = expand := funext fun args => funext fun text => rewrite_eq args text
  rw [h]
  exact isSinglePass_expand

namespace Status

theorem says_of_received {response : Tree Label} {reply : Nat}
    (h : (extract response reply).received = true) :
    response.Says (extract response reply).text := by
  rw [extract] at h ⊢
  rcases hholder : holder? response with _ | ⟨holder, severity⟩
  · simp [hholder, absent] at h
  · exact ⟨holder, _, or_of_holder? hholder, Reference.expands_iff.2 rfl,
      by rw [String.ofList_toList]; rfl⟩

/-- The text of each status that is extracted is what its response says, in a tree and along the
links, where the status of each node of a document is the one of the tree below it. -/
theorem text_exact :
    (∀ (response : Tree Label) (reply : Nat), (extract response reply).received = true →
      response.Says (extract response reply).text) ∧
    (∀ (n : ReachedNode) (reply : Nat), ∃ s, n.links.status n.id reply = some s ∧
      s = extract n.tree.labels reply ∧ (s.received = true → n.tree.Says s.text)) ∧
    Reference.IsSinglePass Reference.expand ∧ Reference.IsSinglePass Reference.rewrite := by
  refine ⟨fun response reply h => says_of_received h, fun n reply => ?_,
    Reference.isSinglePass_expand, Reference.isSinglePass_rewrite⟩
  have hstatus := n.standing.status reply
  rw [n.node_id] at hstatus
  exact ⟨_, hstatus, rfl, fun h => (says_of_received h).of_labels⟩

/-- A message that refers to the arguments around it, and past them. -/
def beside : List Edit :=
  [.appendChild ⟨0⟩ .element "argument" "eth0",
    .appendChild ⟨0⟩ .element "message" "\uE001: \uE000\uE005",
    .appendAttribute ⟨2⟩ "warning" "no", .appendChild ⟨0⟩ .data "" "argument",
    .appendChild ⟨0⟩ .element "argument" "down"]

theorem text_exact_beside : ∃ (n : ReachedNode) (s : Status),
    n.document = beside.foldl Document.edit .empty ∧ n.links.status n.id 7 = some s ∧
      s.received = true ∧ s.text = "down: eth0" := by
  obtain ⟨c, -, hc⟩ := Reached.run beside .empty (by decide)
  let n : ReachedNode := ⟨⟨c, _, hc⟩, ⟨0⟩, _, rfl⟩
  obtain ⟨s, hs, rfl, -⟩ := text_exact.2.1 n 7
  have hstatus : (extract (beside.foldl Document.edit .empty).tree.labels 7).received = true ∧
      (extract (beside.foldl Document.edit .empty).tree.labels 7).text = "down: eth0" := by
    decide +kernel
  exact ⟨n, _, rfl, hs, hstatus⟩

end Status

end Treegram
