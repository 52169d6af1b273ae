import Treegram.Proofs.ComposedPaths
import Treegram.Proofs.Numerals

/-!
# Integers at the end of a path

The value that a path leads to is read as an integer of one type or another, and as the same integer
by each type that has it (`integers_agree`): all of them read the numerals of their members, and
where a type is not signed, none with a minus sign.
-/

namespace Treegram

/-- The types of integers that have a reader of their own. -/
def IntegerType.queried : List IntegerType :=
  [int32, word32, int64, word64]

/-- Whether the readers of several types make the same of a text, as far as their types go. -/
structure ReadersAgree (text : Except PathFault String)
    (read : IntegerType → Except PathFault Int) : Prop where
  passed : ∀ type e, text = .error e → read type = .error e
  refused : ∀ type value e, text = .ok value → read type = .error e → e = .format
  int32 : ∀ v, read .int32 = .ok v ↔ read .int64 = .ok v ∧ -0x80000000 ≤ v ∧ v < 0x80000000
  word32 : ∀ v, read .word32 = .ok v ↔ read .word64 = .ok v ∧ v < 0x100000000
  int64_of_word64 : ∀ v, read .word64 = .ok v → v < 0x8000000000000000 → read .int64 = .ok v
  word64_of_int64 : ∀ v, read .int64 = .ok v → 0 < v → read .word64 = .ok v
  spelled : ∀ type ∈ IntegerType.queried, ∀ v value cs, type.Has v → IsSpelling v cs →
    IsPadded cs value.toList → text = .ok value → read type = .ok v

namespace IntegerType

variable {v : Int}

theorem bound_pos : ∀ type ∈ queried, 0 < type.bound := by
  decide

theorem has_int32 : int32.Has v ↔ -0x80000000 ≤ v ∧ v < 0x80000000 :=
  Iff.rfl

theorem has_int64 : int64.Has v ↔ -0x8000000000000000 ≤ v ∧ v < 0x8000000000000000 :=
  Iff.rfl

theorem has_word32 : word32.Has v ↔ 0 ≤ v ∧ v < 0x100000000 :=
  Iff.rfl

theorem has_word64 : word64.Has v ↔ 0 ≤ v ∧ v < 0x10000000000000000 :=
  Iff.rfl

end IntegerType

namespace Tree

variable {α : Type} [Labelled α] (t : Tree α) (path : String)

theorem firstParsed_eq {β : Type} (read? : List Char → Option β) : t.firstParsed path read? =
    match t.firstText path with
    | .error e => .error e
    | .ok value =>
      match read? (trim value.toList) with
      | some b => .ok b
      | none => .error .format := by
  rw [firstParsed]
  rcases t.firstText path with e | value
  · rfl
  · simp only [bind, Except.bind]
    rcases read? (trim value.toList) with _ | b <;> rfl

theorem firstInteger_eq_ok_iff {type : IntegerType} (hbound : 0 < type.bound) {v : Int} :
    t.firstInteger path type = .ok v ↔ ∃ value, t.firstText path = .ok value ∧
      IsNumeral (trim value.toList) v ∧ type.Has v ∧
        ((trim value.toList).head? = some '-' → type.signed = true) := by
  rw [firstInteger, firstParsed_eq]
  rcases t.firstText path with e | value
  · simp
  · simp only [Except.ok.injEq, exists_eq_left', ← IntegerType.read?_eq_some_iff hbound]
    rcases type.read? (trim value.toList) with _ | w <;> simp

theorem readersAgree : ReadersAgree (t.firstText path) (t.firstInteger path) where
  passed type e h := by rw [firstInteger, firstParsed_eq, h]
  refused type value e h he := by
    rw [firstInteger, firstParsed_eq, h] at he
    dsimp only at he
    split at he
    · simp at he
    · exact (Except.error.inj he).symm
  int32 v := by
    rw [firstInteger_eq_ok_iff _ _ (by decide), firstInteger_eq_ok_iff _ _ (by decide)]
    simp only [IntegerType.has_int32, IntegerType.has_int64]
    constructor
    · rintro ⟨value, hvalue, hv, hrange, hsign⟩
      exact ⟨⟨value, hvalue, hv, by omega, hsign⟩, hrange⟩
    · rintro ⟨⟨value, hvalue, hv, -, hsign⟩, hrange⟩
      exact ⟨value, hvalue, hv, hrange, hsign⟩
  word32 v := by
    rw [firstInteger_eq_ok_iff _ _ (by decide), firstInteger_eq_ok_iff _ _ (by decide)]
    simp only [IntegerType.has_word32, IntegerType.has_word64]
    constructor
    · rintro ⟨value, hvalue, hv, hrange, hsign⟩
      exact ⟨⟨value, hvalue, hv, by omega, hsign⟩, hrange.2⟩
    · rintro ⟨⟨value, hvalue, hv, hrange, hsign⟩, hlt⟩
      exact ⟨value, hvalue, hv, ⟨hrange.1, hlt⟩, hsign⟩
  int64_of_word64 v := by
    rw [firstInteger_eq_ok_iff _ _ (by decide), firstInteger_eq_ok_iff _ _ (by decide),
      IntegerType.has_int64, IntegerType.has_word64]
    rintro ⟨value, hvalue, hv, hrange, -⟩ hlt
    exact ⟨value, hvalue, hv, by omega, fun _ => rfl⟩
  word64_of_int64 v := by
    rw [firstInteger_eq_ok_iff _ _ (by decide), firstInteger_eq_ok_iff _ _ (by decide),
      IntegerType.has_int64, IntegerType.has_word64]
    rintro ⟨value, hvalue, hv, hrange, -⟩ hpos
    exact ⟨value, hvalue, hv, by omega, fun hminus => absurd (hv.nonpos_of_minus hminus) (by omega)⟩
  spelled type htype v value cs hhas hcs hvalue htext := by
    rw [firstInteger_eq_ok_iff _ _ (IntegerType.bound_pos type htype)]
    refine ⟨value, htext, ?_, hhas, ?_⟩ <;> rw [hcs.isNumeral.trim_eq hvalue]
    · exact hcs.isNumeral
    · intro hminus
      have hneg := hcs.neg_of_minus hminus
      have hleast := hhas.1
      by_contra hsigned
      rw [if_neg hsigned] at hleast
      omega

end Tree

/-- In a tree and along the links, readers of integers agree about each path. -/
theorem ReachedNode.integers_agree :
    (∀ (t : Tree Node) (path : String), ReadersAgree (t.firstText path) (t.firstInteger path)) ∧
    ∀ (n : ReachedNode) (path : String), ∃ text read, n.ask path .text = some text ∧
      (∀ type : IntegerType, n.ask path (.parsed type.read?) = some (read type)) ∧
        ReadersAgree text read :=
  ⟨fun t path => t.readersAgree path, fun n path => ⟨_, _, n.ask_eq path .text,
    fun type => n.ask_eq path (.parsed type.read?), n.tree.readersAgree path⟩⟩

/-- The least 64-bit integer, written with blanks and zeros in a document. -/
def least : List Edit :=
  [.appendChild ⟨0⟩ .element "a" "\t-009223372036854775808 "]

theorem ReachedNode.integers_agree_least : ∃ n : ReachedNode,
    n.document = least.foldl Document.edit .empty ∧
    n.ask "a" (.parsed IntegerType.int64.read?) = some (.ok (-9223372036854775808)) ∧
    n.ask "a" (.parsed IntegerType.int32.read?) = some (.error .format) := by
  obtain ⟨c, -, hc⟩ := Reached.run least .empty (by decide)
  let n : ReachedNode := ⟨⟨c, _, hc⟩, ⟨0⟩, _, rfl⟩
  obtain ⟨text, read, htext, hread, h⟩ := integers_agree.2 n "a"
  have hvalue : text = .ok "\t-009223372036854775808 " :=
    Option.some.inj (htext.symm.trans ((n.ask_eq "a" .text).trans rfl))
  have hspelling : IsSpelling (-9223372036854775808) "-009223372036854775808".toList :=
    .minus 9223372036854775808 2 (by decide)
  have hpadded : IsPadded "-009223372036854775808".toList "\t-009223372036854775808 ".toList :=
    ⟨['\t'], [' '], by decide, List.forall_mem_singleton.2 rfl, List.forall_mem_singleton.2 rfl⟩
  have hint64 : read .int64 = .ok (-9223372036854775808) :=
    h.spelled .int64 (by decide) _ _ _ (IntegerType.has_int64.2 (by decide)) hspelling hpadded
      hvalue
  refine ⟨n, rfl, by rw [hread, hint64], ?_⟩
  rw [hread]
  rcases hint32 : read .int32 with e | v
  · rw [h.refused .int32 _ e hvalue hint32]
  · -- a 32-bit integer would be the one that 64 bits hold
    obtain ⟨hv, hlow, -⟩ := (h.int32 v).1 hint32
    obtain rfl := Except.ok.inj (hint64.symm.trans hv)
    omega

end Treegram
