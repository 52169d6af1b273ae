import Mathlib.Data.List.TakeWhile
import Treegram.Proofs.ComposedPaths

/-!
# Faulty paths

A path is refused as faulty if an at sign stands in front of its last part, whatever it is asked of.
Other faults are seen only once the elements of the path are found: an at sign that is not followed
by the name of an attribute, and where a node is asked for, any at sign (`syntax_exact`). Where the
elements are not found, such a path is one like any other that leads nowhere; so what a path is
refused as does not depend on it alone (`not_syntaxByPath`).
-/

namespace Treegram

namespace Path

variable {a : Char}

theorem cut?_eq_some_iff : ∀ {cs name attr : List Char},
    cut? a cs = some (name, attr) ↔ cs = name ++ a :: attr ∧ a ∉ name
  | [], name, attr => by simp [cut?]
  | c :: cs, name, attr => by
    rw [cut?]
    split
    · rename_i hc
      subst hc
      rcases name with _ | ⟨d, name⟩
      · simp
      · simp only [Option.some.injEq, Prod.mk.injEq, reduceCtorEq, false_and, List.cons_append,
          List.cons.injEq, List.mem_cons, not_or, false_iff, not_and]
        rintro ⟨rfl, -⟩ hne
        exact absurd rfl hne
    · rename_i hc
      rcases name with _ | ⟨d, name⟩
      · simp [hc]
      · simp only [Option.map_eq_some_iff, Prod.exists, cut?_eq_some_iff, Prod.mk.injEq,
          List.cons.injEq, List.cons_append, List.mem_cons, not_or]
        constructor
        · rintro ⟨name, attr, ⟨rfl, hname⟩, ⟨rfl, rfl⟩, rfl⟩
          exact ⟨⟨rfl, rfl⟩, Ne.symm hc, hname⟩
        · rintro ⟨⟨rfl, rfl⟩, -, hname⟩
          exact ⟨name, attr, ⟨rfl, hname⟩, ⟨rfl, rfl⟩, rfl⟩

theorem cut?_eq_none_iff : ∀ {cs : List Char}, cut? a cs = none ↔ a ∉ cs
  | [] => by simp [cut?]
  | c :: cs => by
    rw [cut?]
    split
    · rename_i hc
      simp [hc]
    · rename_i hc
      rw [Option.map_eq_none_iff, cut?_eq_none_iff, List.mem_cons, not_or]
      exact (and_iff_right (Ne.symm hc)).symm

theorem exists_mem_parts {sep : Char} (hsep : a ≠ sep) : ∀ {cs : List Char}, a ∈ cs →
    ∃ s ∈ parts sep cs, a ∈ s
  | c :: cs, h => by
    rw [parts]
    split
    · rename_i hc
      subst hc
      obtain ⟨s, hs, ha⟩ := exists_mem_parts hsep (List.mem_of_ne_of_mem hsep h)
      exact ⟨s, List.mem_cons_of_mem _ hs, ha⟩
    · rcases hparts : parts sep cs with _ | ⟨part, ps⟩
      · exact absurd hparts (parts_ne_nil sep cs)
      · rcases List.mem_cons.1 h with rfl | h
        · exact ⟨_, List.mem_cons_self, List.mem_cons_self⟩
        · obtain ⟨s, hs, ha⟩ := exists_mem_parts hsep h
          rw [hparts] at hs
          rcases List.mem_cons.1 hs with rfl | hs
          · exact ⟨_, List.mem_cons_self, List.mem_cons_of_mem _ ha⟩
          · exact ⟨s, List.mem_cons_of_mem _ hs, ha⟩

/-- The parts of a path as far as they are names of elements: all that stands in front of at
signs. -/
def walked (path : String) : List (List Char) :=
  (parts '/' path.toList).map fun s => s.takeWhile fun c => c ≠ '@'

/-- The names of the elements to which a path leads, in order. -/
def elements (path : String) : List String :=
  ((walked path).filter fun s => s ≠ []).map String.ofList

/-- Whether the last part of a path has an at sign that no name of an attribute follows: nothing, or
another at sign somewhere. -/
def IsUnfinished (path : String) : Prop :=
  ∃ name attr, (parts '/' path.toList).getLast? = some (name ++ '@' :: attr) ∧ '@' ∉ name ∧
    (attr = [] ∨ '@' ∈ attr)

theorem takeWhile_of_not_mem {cs : List Char} (h : a ∉ cs) :
    (cs.takeWhile fun c => c ≠ a) = cs := by
  refine List.takeWhile_eq_self_iff.2 fun c hc => ?_
  simp only [ne_eq, decide_eq_true_eq]
  rintro rfl
  exact h hc

theorem takeWhile_append {name attr : List Char} (h : a ∉ name) :
    ((name ++ a :: attr).takeWhile fun c => c ≠ a) = name := by
  rw [List.takeWhile_append_of_pos, List.takeWhile_cons_of_neg (by simp), List.append_nil]
  intro c hc
  simp only [ne_eq, decide_eq_true_eq]
  rintro rfl
  exact h hc

theorem walked_eq {path : String} {inner : List (List Char)} {last : List Char}
    (h : parts '/' path.toList = inner ++ [last]) (hplain : ¬IsMisplaced path) :
    walked path = inner ++ [last.takeWhile fun c => c ≠ '@'] := by
  rw [walked, h, List.map_append, List.map_singleton]
  congr 1
  refine (List.map_congr_left fun s hs => ?_).trans (List.map_id inner)
  exact takeWhile_of_not_mem fun ha => hplain ((isMisplaced_iff h).2 ⟨s, hs, ha⟩)

theorem mem_iff {path : String} {inner : List (List Char)} {last : List Char}
    (h : parts '/' path.toList = inner ++ [last]) (hplain : ¬IsMisplaced path) :
    '@' ∈ path.toList ↔ '@' ∈ last := by
  constructor
  · intro ha
    obtain ⟨s, hs, ha⟩ := exists_mem_parts (show '@' ≠ '/' by decide) ha
    rw [h] at hs
    rcases List.mem_append.1 hs with hs | hs
    · exact absurd ((isMisplaced_iff h).2 ⟨s, hs, ha⟩) hplain
    · rwa [List.mem_singleton.1 hs] at ha
  · intro ha
    by_contra hnot
    exact not_mem_of_mem_parts '/' hnot last (by simp [h]) ha

theorem isUnfinished_iff {path : String} {inner : List (List Char)} {last : List Char}
    (h : parts '/' path.toList = inner ++ [last]) : IsUnfinished path ↔
      ∃ name attr, cut? '@' last = some (name, attr) ∧ (attr = [] ∨ '@' ∈ attr) := by
  simp only [IsUnfinished, h, List.getLast?_concat, Option.some.injEq, cut?_eq_some_iff, and_assoc]

theorem IsUnfinished.mem {path : String} (h : IsUnfinished path) : '@' ∈ path.toList := by
  obtain ⟨name, attr, hlast, -⟩ := h
  by_contra hnot
  exact not_mem_of_mem_parts '/' hnot _ (List.mem_of_getLast? hlast) (by simp)

end Path

namespace Tree

variable {α : Type} [Labelled α] (t : Tree α) (path : String)

/-- All that can come of a path. -/
theorem resolve_cases :
    Path.IsMisplaced path ∧ t.resolve path = .error .syntaxError ∨
    ¬Path.IsMisplaced path ∧ t.walk? (Path.walked path) = none ∧
      t.resolve path = .error .notFound ∨
    ¬Path.IsMisplaced path ∧ ∃ u, t.walk? (Path.walked path) = some u ∧
      (Path.IsUnfinished path ∧ t.resolve path = .error .syntaxError ∨
        ¬Path.IsUnfinished path ∧ ∃ attr, t.resolve path = .ok (u, attr) ∧
          (attr.isSome ↔ '@' ∈ path.toList)) := by
  obtain ⟨inner, last, h⟩ := Path.exists_parts path
  rw [resolve_eq h]
  by_cases hplain : Path.IsMisplaced path
  · exact .inl ⟨hplain, if_pos hplain⟩
  · rw [if_neg hplain, Path.walked_eq h hplain, walk?_append, Path.isUnfinished_iff h,
      Path.mem_iff h hplain]
    rcases t.walk? inner with _ | u
    · exact .inr (.inl ⟨hplain, rfl, rfl⟩)
    · simp only [Option.bind_some, walk?, lastPart]
      rcases hcut : Path.cut? '@' last with _ | ⟨name, attr⟩
      · have hlast := Path.cut?_eq_none_iff.1 hcut
        rw [Path.takeWhile_of_not_mem hlast]
        rcases u.descend? last with _ | v
        · exact .inr (.inl ⟨hplain, rfl, rfl⟩)
        · exact .inr (.inr ⟨hplain, v, rfl, .inr ⟨by simp, none, rfl, by simp [hlast]⟩⟩)
      · obtain ⟨rfl, hname⟩ := Path.cut?_eq_some_iff.1 hcut
        rw [Path.takeWhile_append hname]
        dsimp only
        rcases u.descend? name with _ | v
        · exact .inr (.inl ⟨hplain, rfl, rfl⟩)
        · refine .inr (.inr ⟨hplain, v, rfl, ?_⟩)
          by_cases hattr : attr = [] ∨ attr.contains '@' = true
          · exact .inl ⟨⟨name, attr, rfl, by simpa using hattr⟩, if_pos hattr⟩
          · refine .inr ⟨?_, _, if_neg hattr, by simp⟩
            rintro ⟨name', attr', ⟨⟩, hattr'⟩
            exact hattr (by simpa using hattr')

end Tree

/-- Whether it is told from a path, and from whether its elements were found, what is refused as
faulty. Without them, a path without an at sign in front of its last part leads nowhere. -/
structure JudgesSyntax (path : String) (found : Prop) (text : Except PathFault String)
    (node : Except PathFault NodeId) : Prop where
  text_iff : text = .error .syntaxError ↔ Path.IsMisplaced path ∨ Path.IsUnfinished path ∧ found
  node_iff : node = .error .syntaxError ↔ Path.IsMisplaced path ∨ '@' ∈ path.toList ∧ found
  lost : ¬Path.IsMisplaced path → ¬found → text = .error .notFound ∧ node = .error .notFound

namespace Tree

theorem firstText_of_resolve {α : Type} [Labelled α] {t u : Tree α} {path : String}
    {attr : Option String} (h : t.resolve path = .ok (u, attr)) :
    t.firstText path ≠ .error .syntaxError := by
  rw [firstText, h]
  rcases attr with _ | name
  · simp [bind, Except.bind, pure, Except.pure]
  · simp only [bind, Except.bind]
    rcases u.attribute? name with _ | value <;> simp [pure, Except.pure, throw, throwThe,
      MonadExceptOf.throw]

theorem judgesSyntax (t : Tree Node) (path : String) :
    JudgesSyntax path (t.walk? (Path.walked path)).isSome (t.ask path .text)
      (t.ask path .node) := by
  rcases t.resolve_cases path with ⟨hplain, h⟩ | ⟨hplain, hwalk, h⟩ |
    ⟨hplain, u, hwalk, ⟨hunfinished, h⟩ | ⟨hunfinished, attr, h, hattr⟩⟩
  · rw [ask_of_error h, ask_of_error h]
    exact ⟨by simp [hplain], by simp [hplain], fun hnot => absurd hplain hnot⟩
  · rw [ask_of_error h, ask_of_error h]
    exact ⟨by simp [hplain, hwalk], by simp [hplain, hwalk], fun _ _ => ⟨rfl, rfl⟩⟩
  · rw [ask_of_error h, ask_of_error h]
    exact ⟨by simp [hwalk, hunfinished], by simp [hwalk, hunfinished.mem],
      fun _ hlost => absurd hlost (by simp [hwalk])⟩
  · refine ⟨?_, ?_, fun _ hlost => absurd hlost (by simp [hwalk])⟩
    · rw [ask]
      simpa [hplain, hunfinished] using firstText_of_resolve h
    · rw [ask, firstNode, h]
      rcases attr with _ | name
      · simpa [hplain, hwalk, bind, Except.bind, pure, Except.pure, Except.map] using hattr
      · simpa [hplain, hwalk, bind, Except.bind, throw, throwThe, MonadExceptOf.throw,
          Except.map] using hattr

end Tree

namespace ReachedNode

/-- Whether the elements of a path are found from a node, each the first of its name. -/
def Finds (n : ReachedNode) (path : String) : Prop :=
  ∃ id, (Path.elements path).foldlM (firstNamed? n.links.view) n.id = some id

theorem finds_iff (n : ReachedNode) (path : String) :
    n.Finds path ↔ (n.tree.walk? (Path.walked path)).isSome = true := by
  obtain ⟨r, -, hwalk, hnames⟩ := exists_walk (Path.walked path) n
  rw [Finds, Path.elements, hnames, hwalk]
  rcases r with _ | m <;> simp

theorem judgesSyntax (n : ReachedNode) (path : String) :
    ∃ text node, n.ask path .text = some text ∧ n.ask path .node = some node ∧
      JudgesSyntax path (n.Finds path) text node := by
  have h := n.tree.judgesSyntax path
  rw [← n.finds_iff path] at h
  exact ⟨_, _, n.ask_eq path .text, n.ask_eq path .node, h⟩

/-- In a tree and along the links, the path and whether its elements are found tell which questions
are refused as faulty. So of two nodes from which it finds its elements or does not, each refuses it
exactly if the other does; and so they do if no at sign in it is out of its place. -/
theorem syntax_exact (path : String) :
    (∀ t : Tree Node, JudgesSyntax path (t.walk? (Path.walked path)).isSome (t.ask path .text)
      (t.ask path .node)) ∧
    (∀ n : ReachedNode, ∃ text node, n.ask path .text = some text ∧ n.ask path .node = some node ∧
      JudgesSyntax path (n.Finds path) text node) ∧
    (∀ n m : ReachedNode, (Path.IsUnfinished path → (n.Finds path ↔ m.Finds path)) →
      (n.ask path .text = some (.error .syntaxError) ↔
        m.ask path .text = some (.error .syntaxError))) ∧
    ∀ n m : ReachedNode, ('@' ∈ path.toList → (n.Finds path ↔ m.Finds path)) →
      (n.ask path .node = some (.error .syntaxError) ↔
        m.ask path .node = some (.error .syntaxError)) := by
  refine ⟨fun t => t.judgesSyntax path, fun n => n.judgesSyntax path, fun n m hfinds => ?_,
    fun n m hfinds => ?_⟩
  · obtain ⟨text, node, htext, -, h⟩ := n.judgesSyntax path
    obtain ⟨text', node', htext', -, h'⟩ := m.judgesSyntax path
    rw [htext, htext', Option.some.injEq, Option.some.injEq, h.text_iff, h'.text_iff]
    exact or_congr_right (and_congr_right hfinds)
  · obtain ⟨text, node, -, hnode, h⟩ := n.judgesSyntax path
    obtain ⟨text', node', -, hnode', h'⟩ := m.judgesSyntax path
    rw [hnode, hnode', Option.some.injEq, Option.some.injEq, h.node_iff, h'.node_iff]
    exact or_congr_right (and_congr_right hfinds)

/-- Whether the question for a text is refused as faulty from all nodes or from none. -/
def TextSyntaxByPath : Prop :=
  ∀ (path : String) (n m : ReachedNode), n.ask path .text = some (.error .syntaxError) ↔
    m.ask path .text = some (.error .syntaxError)

/-- Whether the question for a node is refused as faulty from all nodes or from none. -/
def NodeSyntaxByPath : Prop :=
  ∀ (path : String) (n m : ReachedNode), n.ask path .node = some (.error .syntaxError) ↔
    m.ask path .node = some (.error .syntaxError)

/-- Whether the question for a node is refused as faulty if there is any at sign. -/
def NodeRefusesSigns : Prop :=
  ∀ (path : String) (n : ReachedNode), '@' ∈ path.toList →
    n.ask path .node = some (.error .syntaxError)

/-- A path to an attribute without a name, or to one of an element where a node is asked for, is
refused as faulty if that element is there and leads nowhere if it is not. -/
theorem not_syntaxByPath : ¬TextSyntaxByPath ∧ ¬NodeSyntaxByPath ∧ ¬NodeRefusesSigns := by
  obtain ⟨c, -, hc⟩ := Reached.run [.appendChild ⟨0⟩ .element "a" ""] .empty (by decide)
  let n : ReachedNode := ⟨⟨c, _, hc⟩, ⟨0⟩, _, rfl⟩
  let m : ReachedNode := ⟨⟨_, _, .empty⟩, ⟨0⟩, _, rfl⟩
  -- the one document has the element of both paths, the other does not
  have hntext : n.ask "a@" .text = some (.error .syntaxError) := (n.ask_eq _ _).trans rfl
  have hmtext : m.ask "a@" .text = some (.error .notFound) := (m.ask_eq _ _).trans rfl
  have hnnode : n.ask "a@b" .node = some (.error .syntaxError) := (n.ask_eq _ _).trans rfl
  have hmnode : m.ask "a@b" .node = some (.error .notFound) := (m.ask_eq _ _).trans rfl
  refine ⟨fun h => ?_, fun h => ?_, fun h => ?_⟩
  · have := (h "a@" n m).1 hntext
    simp [hmtext] at this
  · have := (h "a@b" n m).1 hnnode
    simp [hmnode] at this
  · have := h "a@b" m (by decide)
    simp [hmnode] at this

end ReachedNode

end Treegram
