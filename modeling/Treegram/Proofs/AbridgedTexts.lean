import Mathlib.Data.String.Basic
import Treegram.Text.Abridged

/-!
# What is kept of a text

A text that is too long keeps its longest start of whole characters that leaves room for the
ellipsis (`abridge_exact`). In bytes, the search for a boundary ends where that start does
(`Abridged.boundaryFrom_eq`), for the boundaries of a text are the lengths of its starts
(`Abridged.isBoundary_iff`). A character has at most four bytes, so no more than three that would
have had room are given up.
-/

namespace Treegram

namespace Abridged

open String (utf8Len)

variable {room cut : Nat} {s kept rest : String}

/-- Whether `kept` is the longest start of `s` that consists of whole characters and has at most
`room` bytes. -/
structure IsLongest (room : Nat) (s kept : String) : Prop where
  start : ∃ rest, s = kept ++ rest
  fits : kept.utf8ByteSize ≤ room
  longest : ∀ t rest, s = t ++ rest → t.utf8ByteSize ≤ room → t.utf8ByteSize ≤ kept.utf8ByteSize

/-! ## Character by character -/

theorem utf8ByteSize_eq (s : String) : s.utf8ByteSize = utf8Len s.toList := by
  rw [← String.utf8ByteSize_ofList, String.ofList_toList]

theorem fitting_isPrefix : ∀ (room : Nat) (cs : List Char), fitting room cs <+: cs
  | _, [] => List.prefix_rfl
  | room, c :: cs => by
    rw [fitting]
    split
    · exact (List.prefix_cons_inj c).2 (fitting_isPrefix _ cs)
    · exact List.nil_prefix

theorem utf8Len_fitting_le : ∀ (room : Nat) (cs : List Char), utf8Len (fitting room cs) ≤ room
  | _, [] => Nat.zero_le _
  | room, c :: cs => by
    rw [fitting]
    split
    · have ih := utf8Len_fitting_le (room - c.utf8Size) cs
      rw [String.utf8Len_cons]
      omega
    · exact Nat.zero_le _

theorem prefix_fitting : ∀ {room : Nat} {ts cs : List Char}, ts <+: cs → utf8Len ts ≤ room →
    ts <+: fitting room cs
  | _, [], _, _, _ => List.nil_prefix
  | room, t :: ts, [], h, _ => absurd (List.prefix_nil.1 h) (List.cons_ne_nil t ts)
  | room, t :: ts, c :: cs, h, hfits => by
    obtain ⟨rfl, hts⟩ := List.cons_prefix_cons.1 h
    rw [String.utf8Len_cons] at hfits
    rw [fitting, if_pos (by omega)]
    exact (List.prefix_cons_inj t).2 (prefix_fitting hts (by omega))

/-- The first character that is left out does not fit. -/
theorem fitting_eq_or_lt : ∀ (room : Nat) (cs : List Char),
    fitting room cs = cs ∨ room ≤ utf8Len (fitting room cs) + 3
  | _, [] => .inl rfl
  | room, c :: cs => by
    rw [fitting]
    split
    · rw [List.cons.injEq, String.utf8Len_cons]
      exact (fitting_eq_or_lt (room - c.utf8Size) cs).imp (⟨rfl, ·⟩) fun ih => by omega
    · have hsize := c.utf8Size_le_four
      exact .inr (by simp only [String.utf8Len_nil]; omega)

theorem isLongest_fitting (room : Nat) (s : String) :
    IsLongest room s (String.ofList (fitting room s.toList)) where
  start := by
    obtain ⟨cs, hcs⟩ := fitting_isPrefix room s.toList
    exact ⟨String.ofList cs, by rw [← String.ofList_append, hcs, String.ofList_toList]⟩
  fits := by
    rw [String.utf8ByteSize_ofList]
    exact utf8Len_fitting_le room s.toList
  longest := by
    rintro t rest rfl ht
    rw [utf8ByteSize_eq] at ht ⊢
    rw [String.utf8ByteSize_ofList, String.toList_append]
    exact String.utf8Len_le_of_prefix
      (prefix_fitting (List.prefix_append t.toList rest.toList) ht)

/-! ## Byte by byte -/

theorem isBoundary_iff :
    isBoundary s cut = true ↔ ∃ t rest, s = t ++ rest ∧ t.utf8ByteSize = cut := by
  rw [isBoundary, String.Pos.Raw.isValid_eq_true_iff, String.Pos.Raw.isValid_iff_exists_append]
  simp only [String.Pos.Raw.ext_iff, String.byteIdx_rawEndPos, eq_comm (a := cut)]

theorem boundaryFrom_of_between {b : Nat} (hb : isBoundary s b = true) : ∀ {cut : Nat}, b ≤ cut →
    (∀ i, b < i → i ≤ cut → isBoundary s i = false) → boundaryFrom s cut = some b
  | 0, hle, _ => by
    obtain rfl := Nat.le_zero.1 hle
    rw [boundaryFrom, if_pos hb]
  | cut + 1, hle, hbetween => by
    rw [boundaryFrom]
    rcases Nat.lt_or_eq_of_le hle with hlt | rfl
    · rw [if_neg (by simp [hbetween (cut + 1) hlt le_rfl])]
      exact boundaryFrom_of_between hb (Nat.le_of_lt_succ hlt)
        fun i hi hcut => hbetween i hi (Nat.le_succ_of_le hcut)
    · rw [if_pos hb]

/-- The search does not go past the start: it ends behind the longest start that fits. -/
theorem boundaryFrom_eq (h : IsLongest room s kept) :
    boundaryFrom s room = some kept.utf8ByteSize := by
  obtain ⟨rest, hs⟩ := h.start
  have hkept : isBoundary s kept.utf8ByteSize = true := isBoundary_iff.2 ⟨kept, rest, hs, rfl⟩
  refine boundaryFrom_of_between hkept h.fits fun i hi hroom => ?_
  rw [Bool.eq_false_iff]
  intro hboundary
  obtain ⟨t, rest, ht, rfl⟩ := isBoundary_iff.1 hboundary
  exact absurd (h.longest t rest ht hroom) (Nat.not_le_of_lt hi)

theorem front_append (kept rest : String) :
    front (kept ++ rest) kept.utf8ByteSize = some kept := by
  have hvalid : String.Pos.Raw.IsValid (kept ++ rest) ⟨kept.utf8ByteSize⟩ :=
    String.Pos.Raw.isValid_iff_exists_append.2 ⟨kept, rest, rfl, rfl⟩
  rw [front, dif_pos hvalid, Option.some.injEq, ← String.toByteArray_inj]
  show (kept ++ rest).toByteArray.extract 0 kept.utf8ByteSize = kept.toByteArray
  rw [String.toByteArray_append]
  exact ByteArray.extract_append_eq_left String.size_toByteArray.symm

/-- The first `n` bytes of the ellipsis. -/
def dots (n : Nat) : String :=
  String.ofList (List.replicate (min n 3) '.')

theorem ofList_take_ellipsis (n : Nat) : String.ofList (ellipsis.take n) = dots n := by
  show String.ofList ((List.replicate 3 '.').take n) = _
  rw [List.take_replicate, dots]

theorem utf8ByteSize_dots : ∀ n, (dots n).utf8ByteSize = min n 3
  | 0 | 1 | 2 => rfl
  | n + 3 => by
    rw [dots, Nat.min_eq_right (Nat.le_add_left 3 n)]
    rfl

theorem front_ellipsis (n : Nat) : front "..." (min n "...".utf8ByteSize) = some (dots n) := by
  have hdots : "..." = dots n ++ String.ofList (ellipsis.drop n) := by
    rw [← ofList_take_ellipsis, ← String.ofList_append, List.take_append_drop]
    rfl
  have h := front_append (dots n) (String.ofList (ellipsis.drop n))
  rwa [← hdots, utf8ByteSize_dots] at h

end Abridged

open Abridged

theorem abridge_of_lt {limit : Nat} {s : String} (h : limit < s.utf8ByteSize) :
    abridge limit s = String.ofList (fitting (limit - 3) s.toList) ++ dots limit := by
  rw [abridge, if_neg (Nat.not_le_of_lt h), String.ofList_append, ofList_take_ellipsis]

theorem abridgeBytes_eq (limit : Nat) (s : String) :
    abridgeBytes limit s = some (abridge limit s) := by
  rcases Nat.lt_or_ge limit s.utf8ByteSize with h | h
  · have hlongest := isLongest_fitting (limit - 3) s
    obtain ⟨rest, hs⟩ := hlongest.start
    have hfront := front_append (String.ofList (fitting (limit - 3) s.toList)) rest
    rw [← hs] at hfront
    have hcut : boundaryFrom s (limit - "...".utf8ByteSize) = _ := boundaryFrom_eq hlongest
    rw [abridge_of_lt h, abridgeBytes, if_neg (Nat.not_le_of_lt h), hcut, front_ellipsis]
    simp only [Option.bind_eq_bind, Option.bind_some, hfront, Option.pure_def]
  · rw [abridgeBytes, abridge, if_pos h, if_pos h]

/-- Whether `out` is `s` if that has at most `limit` bytes, and if not, the longest start of it that
leaves room for an ellipsis, and as much of that as there is room for. -/
structure IsAbridged (limit : Nat) (s out : String) : Prop where
  whole : s.utf8ByteSize ≤ limit → out = s
  cut : limit < s.utf8ByteSize → ∃ kept, IsLongest (limit - 3) s kept ∧ out = kept ++ dots limit

theorem isAbridged_abridge (limit : Nat) (s : String) : IsAbridged limit s (abridge limit s) where
  whole h := if_pos h
  cut h := ⟨_, isLongest_fitting (limit - 3) s, abridge_of_lt h⟩

theorem IsAbridged.utf8ByteSize_le {limit : Nat} {s out : String} (h : IsAbridged limit s out) :
    out.utf8ByteSize ≤ limit := by
  rcases Nat.lt_or_ge limit s.utf8ByteSize with hs | hs
  · obtain ⟨kept, hkept, rfl⟩ := h.cut hs
    have hfits := hkept.fits
    rw [String.utf8ByteSize_append, utf8ByteSize_dots]
    omega
  · rwa [h.whole hs]

/-- What is cut off beyond need is less than a character. -/
theorem le_utf8ByteSize_abridge {limit : Nat} {s : String} (h : limit < s.utf8ByteSize) :
    limit ≤ (abridge limit s).utf8ByteSize + 3 := by
  have hall : fitting (limit - 3) s.toList ≠ s.toList := fun hall => by
    have hle := utf8Len_fitting_le (limit - 3) s.toList
    rw [hall, ← utf8ByteSize_eq] at hle
    omega
  have hlt := (fitting_eq_or_lt (limit - 3) s.toList).resolve_left hall
  rw [abridge_of_lt h, String.utf8ByteSize_append, String.utf8ByteSize_ofList, utf8ByteSize_dots]
  omega

/-- Cutting a text byte by byte never fails: the search for a boundary ends, and both parts are
taken up to one. It gives the text itself or its longest start that leaves room for the ellipsis.
The outcome has at most as many bytes as the limit, of a text that was too long at most three less,
and stays as it is when it is cut again. -/
theorem abridge_exact (limit : Nat) (s : String) : ∃ out, abridgeBytes limit s = some out ∧
    abridge limit s = out ∧ IsAbridged limit s out ∧ out.utf8ByteSize ≤ limit ∧
    (limit < s.utf8ByteSize → limit ≤ out.utf8ByteSize + 3) ∧
    abridgeBytes limit out = some out := by
  have h := isAbridged_abridge limit s
  refine ⟨_, abridgeBytes_eq limit s, rfl, h, h.utf8ByteSize_le, le_utf8ByteSize_abridge, ?_⟩
  rw [abridgeBytes, if_pos h.utf8ByteSize_le]

/-- The cut would be within a character. -/
theorem abridge_exact_within : 6 < "ééééé".utf8ByteSize ∧
    ∃ out, abridgeBytes 6 "ééééé" = some out ∧ out = "é..." ∧ 6 ≤ out.utf8ByteSize + 3 := by
  obtain ⟨out, hbytes, hout, -, -, hloss, -⟩ := abridge_exact 6 "ééééé"
  exact ⟨by decide, out, hbytes, hout.symm.trans (by decide), hloss (by decide)⟩

end Treegram
