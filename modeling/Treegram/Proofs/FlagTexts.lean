import Mathlib.Data.List.Forall2
import Treegram.Proofs.IntegerReaders

/-!
# What texts are flags

With blanks around it, a text is a flag exactly if it is one of eight words, in any mix of case, or
a numeral that 64 bits hold with its sign (`flag?_eq_some_iff`). Any integer was meant to be one; a
numeral past that range is none, although there is a type of integers that reads some of these
(`not_flagsIntegers`).
-/

namespace Treegram

namespace Flag

theorem isLower_iff (c : Char) : c.isLower = true ↔ 97 ≤ c.toNat ∧ c.toNat ≤ 122 := by
  show (decide (97 ≤ c.toNat) && decide (c.toNat ≤ 122)) = true ↔ _
  rw [Bool.and_eq_true, decide_eq_true_iff, decide_eq_true_iff]

theorem toNat_toLower (c : Char) :
    c.toLower.toNat = if 65 ≤ c.toNat ∧ c.toNat ≤ 90 then c.toNat + 32 else c.toNat := by
  have hiff : (c.val ≥ 'A'.val ∧ c.val ≤ 'Z'.val) ↔ 65 ≤ c.toNat ∧ c.toNat ≤ 90 := .rfl
  unfold Char.toLower
  split <;> rename_i h <;> rw [hiff] at h
  · have hlt : c.toNat + 32 < 2 ^ 32 := by omega
    rw [if_pos h]
    exact (UInt32.toNat_add _ _).trans (Nat.mod_eq_of_lt hlt)
  · rw [if_neg h]

theorem toNat_toUpper (c : Char) :
    c.toUpper.toNat = if 97 ≤ c.toNat ∧ c.toNat ≤ 122 then c.toNat - 32 else c.toNat := by
  have hiff : ('a'.val ≤ c.val ∧ c.val ≤ 'z'.val) ↔ 97 ≤ c.toNat ∧ c.toNat ≤ 122 := .rfl
  unfold Char.toUpper
  split <;> rename_i h <;> rw [hiff] at h
  · have hmod : (c.toNat + 4294967264) % 2 ^ 32 = c.toNat - 32 := by omega
    rw [if_pos h]
    exact (UInt32.toNat_add _ _).trans hmod
  · rw [if_neg h]

/-- Two letters are a small letter in lower case: it and its capital. -/
theorem toLower_eq_iff {a c : Char} (ha : a.isLower = true) :
    c.toLower = a ↔ c = a ∨ c = a.toUpper := by
  rw [isLower_iff] at ha
  simp only [← Char.toNat_inj, toNat_toLower, toNat_toUpper, if_pos ha]
  split <;> omega

/-- Whether a text is `word`, which is in small letters, in some mix of case. -/
def IsCased (word cs : List Char) : Prop :=
  List.Forall₂ (fun a c => c = a ∨ c = a.toUpper) word cs

theorem isCased_iff : ∀ {word cs : List Char}, (∀ a ∈ word, a.isLower = true) →
    (IsCased word cs ↔ cs.map Char.toLower = word)
  | [], cs, _ => by simp [IsCased]
  | a :: word, [], _ => by simp [IsCased]
  | a :: word, c :: cs, h => by
    rw [List.forall_mem_cons] at h
    rw [IsCased, List.forall₂_cons, List.map_cons, List.cons.injEq, toLower_eq_iff h.1,
      ← isCased_iff h.2]
    rfl

/-- Whether a text stands for a truth value: a word in any mix of case, or a numeral of an integer
that 64 bits hold with its sign. -/
inductive Stands : List Char → Bool → Prop
  | yes {word : String} {cs : List Char} : word ∈ ["yes", "true", "up", "on"] →
    IsCased word.toList cs → Stands cs true
  | no {word : String} {cs : List Char} : word ∈ ["no", "false", "down", "off"] →
    IsCased word.toList cs → Stands cs false
  | numeral {cs : List Char} {v : Int} : IsNumeral cs v → -0x8000000000000000 ≤ v →
    v < 0x8000000000000000 → Stands cs (v != 0)

theorem isLower_trueTexts :
    ∀ word ∈ ["yes", "true", "up", "on"], ∀ a ∈ word.toList, a.isLower = true := by
  simp

theorem isLower_falseTexts :
    ∀ word ∈ ["no", "false", "down", "off"], ∀ a ∈ word.toList, a.isLower = true := by
  simp

section Words

variable {words : List String} (hwords : ∀ word ∈ words, ∀ a ∈ word.toList, a.isLower = true)
  {cs : List Char}

include hwords

theorem exists_isCased_iff :
    (∃ word ∈ words, IsCased word.toList cs) ↔ cs.map Char.toLower ∈ words.map String.toList := by
  rw [List.mem_map]
  refine exists_congr fun word => and_congr_right fun hword => ?_
  rw [isCased_iff (hwords word hword), eq_comm]

theorem between_of_isCased {word : String} (hword : word ∈ words) (hcs : IsCased word.toList cs) :
    ∀ c ∈ cs, 65 ≤ c.toNat ∧ c.toNat ≤ 122 := by
  intro c hc
  have hmem := List.mem_map_of_mem (f := Char.toLower) hc
  rw [(isCased_iff (hwords word hword)).1 hcs] at hmem
  have hlower := (isLower_iff _).1 (hwords word hword _ hmem)
  rw [toNat_toLower] at hlower
  split at hlower <;> omega

/-- A numeral begins with a character with which no word begins. -/
theorem not_mem_of_isNumeral {v : Int} (h : IsNumeral cs v) :
    cs.map Char.toLower ∉ words.map String.toList := by
  rw [← exists_isCased_iff hwords]
  rintro ⟨word, hword, hcs⟩
  have hletter := between_of_isCased hwords hword hcs
  have hdigit {ds : List Char} (hds : IsDecimal ds) (hsub : ds ⊆ cs) : False := by
    obtain ⟨c, hc⟩ := List.exists_mem_of_ne_nil ds hds.ne_nil
    have hrange := hds.between c hc
    have hrange' := hletter c (hsub hc)
    omega
  cases h with
  | plain h => exact hdigit h (List.Subset.refl _)
  | plus h => exact hdigit h (List.subset_cons_self _ _)
  | minus h => exact hdigit h (List.subset_cons_self _ _)

theorem trim_eq_of_isCased {word : String} {text : List Char} (hword : word ∈ words)
    (hne : word.toList ≠ []) (hcs : IsCased word.toList cs) (htext : IsPadded cs text) :
    trim text = cs := by
  have hblank : ∀ c ∈ cs, isBlank c = false := fun c hc => by
    have hletter := between_of_isCased hwords hword hcs c hc
    exact isBlank_eq_false (by omega) (by omega)
  refine htext.trim_eq_of_not_blank ?_ hblank
  rintro rfl
  exact hne (List.forall₂_nil_right_iff.1 hcs)

end Words

theorem Stands.trim_eq {core text : List Char} {b : Bool} (h : Stands core b)
    (htext : IsPadded core text) : trim text = core := by
  cases h with
  | @yes word _ hword hcs =>
    have hne : ∀ word ∈ ["yes", "true", "up", "on"], word.toList ≠ [] := by decide
    exact trim_eq_of_isCased isLower_trueTexts hword (hne word hword) hcs htext
  | @no word _ hword hcs =>
    have hne : ∀ word ∈ ["no", "false", "down", "off"], word.toList ≠ [] := by decide
    exact trim_eq_of_isCased isLower_falseTexts hword (hne word hword) hcs htext
  | numeral h => exact h.trim_eq htext

theorem map_trueTexts : ["yes", "true", "up", "on"].map String.toList = trueWords := by
  decide

theorem map_falseTexts : ["no", "false", "down", "off"].map String.toList = falseWords := by
  decide

theorem stands_iff {cs : List Char} {b : Bool} : Stands cs b ↔
    cs.map Char.toLower ∈ trueWords ∧ b = true ∨ cs.map Char.toLower ∈ falseWords ∧ b = false ∨
      ∃ v : Int, IntegerType.int64.read? cs = some v ∧ (v != 0) = b := by
  rw [← map_trueTexts, ← map_falseTexts, ← exists_isCased_iff isLower_trueTexts,
    ← exists_isCased_iff isLower_falseTexts]
  simp only [IntegerType.read?_eq_some_iff (show 0 < IntegerType.int64.bound by decide)]
  constructor
  · intro h
    cases h with
    | yes hword hcs => exact .inl ⟨⟨_, hword, hcs⟩, rfl⟩
    | no hword hcs => exact .inr (.inl ⟨⟨_, hword, hcs⟩, rfl⟩)
    | @numeral _ v hv hlow hhigh => exact .inr (.inr ⟨v, ⟨hv, ⟨hlow, hhigh⟩, fun _ => rfl⟩, rfl⟩)
  · rintro (⟨⟨word, hword, hcs⟩, rfl⟩ | ⟨⟨word, hword, hcs⟩, rfl⟩ | ⟨v, ⟨hv, hrange, -⟩, rfl⟩)
    · exact .yes hword hcs
    · exact .no hword hcs
    · exact .numeral hv hrange.1 hrange.2

theorem not_mem_words {cs : List Char} {v : Int} (h : IsNumeral cs v) :
    cs.map Char.toLower ∉ trueWords ∧ cs.map Char.toLower ∉ falseWords := by
  rw [← map_trueTexts, ← map_falseTexts]
  exact ⟨not_mem_of_isNumeral isLower_trueTexts h, not_mem_of_isNumeral isLower_falseTexts h⟩

theorem read?_eq_none {cs : List Char}
    (h : cs.map Char.toLower ∈ trueWords ∨ cs.map Char.toLower ∈ falseWords) :
    IntegerType.int64.read? cs = none := by
  refine Option.eq_none_iff_forall_ne_some.2 fun v hv => ?_
  have hnot := not_mem_words ((IntegerType.read?_eq_some_iff (by decide)).1 hv).1
  exact h.elim hnot.1 hnot.2

/-- The order in which the texts are tried does not matter: none of them is two of a true word, a
false word and a numeral. -/
theorem flag?_eq_some_iff_stands (s : String) (b : Bool) :
    flag? s = some b ↔ Stands (trim s.toList) b := by
  rw [stands_iff]
  unfold flag?
  generalize trim s.toList = cs
  dsimp only
  by_cases htrue : cs.map Char.toLower ∈ trueWords
  · have hwords : ∀ word ∈ trueWords, word ∉ falseWords := by decide
    simp [htrue, hwords _ htrue, read?_eq_none (.inl htrue), eq_comm]
  · by_cases hfalse : cs.map Char.toLower ∈ falseWords
    · simp [htrue, hfalse, read?_eq_none (.inr hfalse), eq_comm]
    · simp [htrue, hfalse]

theorem flag?_of_isNumeral {s : String} {v : Int} (h : IsNumeral (trim s.toList) v) :
    flag? s = if -0x8000000000000000 ≤ v ∧ v < 0x8000000000000000 then some (v != 0) else none := by
  split
  · rename_i hv
    exact (flag?_eq_some_iff_stands s _).2 (.numeral h hv.1 hv.2)
  · rename_i hv
    refine Option.eq_none_iff_forall_ne_some.2 fun b hb => ?_
    rw [flag?_eq_some_iff_stands, stands_iff] at hb
    rcases hb with ⟨hb, -⟩ | ⟨hb, -⟩ | ⟨w, hw, -⟩
    · exact (not_mem_words h).1 hb
    · exact (not_mem_words h).2 hb
    · rw [IntegerType.read?_eq_some_iff (by decide), IntegerType.has_int64] at hw
      rw [h.unique hw.1] at hv
      exact hv hw.2.1

theorem flag?_eq_some_iff (s : String) (b : Bool) :
    flag? s = some b ↔ ∃ core, IsPadded core s.toList ∧ Stands core b := by
  rw [flag?_eq_some_iff_stands]
  constructor
  · intro h
    exact ⟨_, isPadded_trim _, h⟩
  · rintro ⟨core, hcore, h⟩
    rwa [h.trim_eq hcore]

end Flag

/-! ## Flags at the end of a path -/

/-- Whether a flag tells of each integer that is read whether it is zero. An integer that 64 bits do
not hold with its sign is no flag. -/
def TellsNonzero (read : IntegerType → Except PathFault Int) (flag : Except PathFault Bool) :
    Prop :=
  ∀ type ∈ IntegerType.queried, ∀ v, read type = .ok v →
    flag = if v < 0x8000000000000000 then .ok (v != 0) else .error .format

theorem IntegerType.le_of_has :
    ∀ type ∈ queried, ∀ {v : Int}, type.Has v → -0x8000000000000000 ≤ v := by
  intro type htype v hv
  simp only [queried, List.mem_cons, List.not_mem_nil, or_false] at htype
  rcases htype with rfl | rfl | rfl | rfl
  · have := (has_int32.1 hv).1
    omega
  · have := (has_word32.1 hv).1
    omega
  · exact hv.1
  · have := (has_word64.1 hv).1
    omega

namespace Tree

variable {α : Type} [Labelled α] (t : Tree α) (path : String)

theorem firstFlag_eq : t.firstFlag path =
    match t.firstText path with
    | .error e => .error e
    | .ok value =>
      match flag? value with
      | some b => .ok b
      | none => .error .format := by
  rw [firstFlag]
  rcases t.firstText path with e | value
  · rfl
  · simp only [bind, Except.bind]
    rcases flag? value with _ | b <;> rfl

theorem tellsNonzero : TellsNonzero (t.firstInteger path) (t.firstFlag path) := by
  intro type htype v hread
  rw [firstInteger_eq_ok_iff _ _ (IntegerType.bound_pos type htype)] at hread
  obtain ⟨value, hvalue, hv, hhas, -⟩ := hread
  have hlow := IntegerType.le_of_has type htype hhas
  rw [firstFlag_eq, hvalue]
  dsimp only
  rw [Flag.flag?_of_isNumeral hv]
  by_cases hhigh : v < 0x8000000000000000
  · rw [if_pos ⟨hlow, hhigh⟩, if_pos hhigh]
  · rw [if_neg fun h => hhigh h.2, if_neg hhigh]

end Tree

/-- The texts that are flags are told exactly; a numeral is one exactly if 64 bits hold its integer
with its sign. Where an integer is read from what a path leads to, in a tree or along the links,
there is a flag that tells whether it is zero, or none if it is too large for that. -/
theorem Flag.texts_exact (s : String) :
    (∀ b, flag? s = some b ↔ ∃ core, IsPadded core s.toList ∧ Stands core b) ∧
    (∀ core v, IsPadded core s.toList → IsNumeral core v →
      (flag? s = some (v != 0) ↔ -0x8000000000000000 ≤ v ∧ v < 0x8000000000000000)) ∧
    (∀ (t : Tree Node) (path : String), TellsNonzero (t.firstInteger path) (t.firstFlag path)) ∧
    ∀ (n : ReachedNode) (path : String), ∃ read flag,
      (∀ type : IntegerType, n.ask path (.parsed type.read?) = some (read type)) ∧
        n.ask path .flag = some flag ∧ TellsNonzero read flag := by
  refine ⟨flag?_eq_some_iff s, fun core v hcore hv => ?_, fun t path => t.tellsNonzero path,
    fun n path => ⟨_, _, fun type => n.ask_eq path (.parsed type.read?), n.ask_eq path .flag,
      n.tree.tellsNonzero path⟩⟩
  rw [← hv.trim_eq hcore] at hv
  rw [flag?_of_isNumeral hv]
  split <;> simp [*]

/-- Whether each integer is a flag, whatever its size. -/
def FlagsNumerals : Prop :=
  ∀ (s : String) (core : List Char) (v : Int), IsPadded core s.toList → IsNumeral core v →
    flag? s = some (v != 0)

/-- Whether there is a flag wherever an integer is read. -/
def FlagsIntegers : Prop :=
  ∀ (n : ReachedNode) (path : String), ∀ type ∈ IntegerType.queried, ∀ v,
    n.ask path (.parsed type.read?) = some (.ok v) → n.ask path .flag = some (.ok (v != 0))

/-- The first integer that 64 bits do not hold with its sign is no flag, not even where it is read
as one that 64 bits hold without. -/
theorem not_flagsIntegers : ¬FlagsNumerals ∧ ¬FlagsIntegers := by
  have hspelling : IsSpelling 9223372036854775808 "9223372036854775808".toList :=
    .plain 9223372036854775808 0
  have hpadded : IsPadded _ "9223372036854775808".toList :=
    ⟨[], [], (List.append_nil _).symm, by simp, by simp⟩
  constructor
  · intro h
    have hflag := h _ _ _ hpadded hspelling.isNumeral
    revert hflag
    decide
  · intro h
    obtain ⟨c, -, hc⟩ := Reached.run
      [.appendChild ⟨0⟩ .element "a" "9223372036854775808"] .empty (by decide)
    let n : ReachedNode := ⟨⟨c, _, hc⟩, ⟨1⟩, _, rfl⟩
    have hread := (n.tree.readersAgree "").spelled .word64 (by decide) _ _ _
      (IntegerType.has_word64.2 (by decide)) hspelling hpadded rfl
    have hflag := h n "" .word64 (by decide) _ ((n.ask_eq _ _).trans (congrArg some hread))
    have hnone := n.tree.tellsNonzero "" .word64 (by decide) _ hread
    rw [n.ask_eq] at hflag
    simp [Tree.ask, hnone] at hflag

end Treegram
