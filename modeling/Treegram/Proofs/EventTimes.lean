import Treegram.Event.Linked
import Treegram.Proofs.FirstNamed
import Treegram.Proofs.Numerals
import Treegram.Proofs.PathSyntax
import Treegram.Proofs.ReachedDocuments
import Treegram.Proofs.StatusTexts

/-!
# When events were raised

The time of an event is read from the decimal texts of seconds, with a number of milliseconds below
a thousand behind a point or without one, and from no others (`RaiseTime.times_exact`). Spans are
added exactly where their sum is a span (`Span.plus?_eq_some_iff`), and the clock counts them
exactly as far as it goes (`ClockTime.after?_eq_some_iff`). Of all the limits on the way, that of
the clock is met first, so that an event whose time is read is never out of its range.
-/

namespace Treegram

/-! ## Sums of spans -/

namespace Span

variable {s t u : Span} {m n k : UInt64}

/-- A span in nanoseconds. -/
def total (s : Span) : Nat :=
  1000000000 * s.seconds.toNat + s.nanoseconds.val

theorem total_inj : s.total = t.total ↔ s = t := by
  refine ⟨fun h => ?_, fun h => h ▸ rfl⟩
  have hs := s.nanoseconds.isLt
  have ht := t.nanoseconds.isLt
  unfold total at h
  obtain ⟨seconds, nanoseconds⟩ := s
  obtain ⟨seconds', nanoseconds'⟩ := t
  simp only at h hs ht
  rw [mk.injEq, ← UInt64.toNat_inj, Fin.ext_iff]
  omega

theorem addSeconds_eq_some_iff : addSeconds m n = some k ↔ k.toNat = m.toNat + n.toNat := by
  have hk : k.toNat < UInt64.size := k.toNat_lt
  unfold addSeconds
  split
  · rename_i h
    rw [Option.some.injEq, ← UInt64.toNat_inj, UInt64.toNat_add, Nat.mod_eq_of_lt h]
    exact eq_comm
  · rename_i h
    simp only [reduceCtorEq, false_iff]
    omega

/-- What the nanoseconds lose is what they carry over. -/
theorem carry_add (a b : Fin 1000000000) :
    1000000000 * (carry a b).toNat + (a + b).val = a.val + b.val := by
  have ha := a.isLt
  have hb := b.isLt
  rw [Fin.val_add, carry]
  split
  · rw [UInt64.toNat_zero]
    omega
  · rw [UInt64.toNat_one]
    omega

/-- Spans are added exactly, if their sum is one. -/
theorem plus?_eq_some_iff : s.plus? t = some u ↔ u.total = s.total + t.total := by
  have hcarry := carry_add s.nanoseconds t.nanoseconds
  have hu := u.nanoseconds.isLt
  have hword : u.seconds.toNat < UInt64.size := u.seconds.toNat_lt
  simp only [plus?, Option.bind_eq_bind, Option.bind_eq_some_iff, Option.pure_def,
    Option.some.injEq, addSeconds_eq_some_iff, ← total_inj]
  simp only [total]
  generalize s.nanoseconds + t.nanoseconds = rest at *
  generalize carry s.nanoseconds t.nanoseconds = more at *
  have hrest := rest.isLt
  constructor
  · rintro ⟨k, hk, k', hk', h⟩
    omega
  · intro h
    have hbelow : s.seconds.toNat + t.seconds.toNat < UInt64.size := by omega
    have hsum := addSeconds_eq_some_iff.1 (if_pos hbelow)
    exact ⟨s.seconds + t.seconds, hsum, u.seconds, by omega, by omega⟩

end Span

namespace ClockTime

variable {t u : ClockTime} {s : Span}

/-- What the clock tells, in nanoseconds. -/
def total (t : ClockTime) : Int :=
  1000000000 * t.seconds.toInt + t.nanoseconds.val

theorem total_inj : t.total = u.total ↔ t = u := by
  refine ⟨fun h => ?_, fun h => h ▸ rfl⟩
  have ht := t.nanoseconds.isLt
  have hu := u.nanoseconds.isLt
  unfold total at h
  obtain ⟨seconds, nanoseconds⟩ := t
  obtain ⟨seconds', nanoseconds'⟩ := u
  simp only at h ht hu
  rw [mk.injEq, ← Int64.toInt_inj, Fin.ext_iff]
  omega

theorem addSeconds_eq_some_iff {a b : Int64} {n : UInt64} :
    addSeconds a n = some b ↔ b.toInt = a.toInt + n.toNat := by
  have ha := a.le_toInt
  have hb := b.toInt_le
  unfold addSeconds
  split
  · rename_i h
    rw [Int64.toInt_maxValue] at h
    rw [Option.some.injEq, ← Int64.toInt_inj, Int64.toInt_ofInt_of_le (by omega) (by omega)]
    exact eq_comm
  · rename_i h
    simp only [reduceCtorEq, false_iff]
    omega

/-- Spans are counted from a time exactly, as far as the clock goes. -/
theorem after?_eq_some_iff : t.after? s = some u ↔ u.total = t.total + s.total := by
  have hcarry := Span.carry_add t.nanoseconds s.nanoseconds
  have hu := u.nanoseconds.isLt
  have hlast := u.seconds.toInt_le
  simp only [after?, Option.bind_eq_bind, Option.bind_eq_some_iff, Option.pure_def,
    Option.some.injEq, addSeconds_eq_some_iff, ← total_inj]
  simp only [total, Span.total]
  generalize t.nanoseconds + s.nanoseconds = rest at *
  generalize Span.carry t.nanoseconds s.nanoseconds = more at *
  have hrest := rest.isLt
  constructor
  · rintro ⟨k, hk, k', hk', h⟩
    omega
  · intro h
    have hbelow : t.seconds.toInt + s.seconds.toNat ≤ Int64.maxValue.toInt := by omega
    have hsum := addSeconds_eq_some_iff.1 (if_pos hbelow)
    exact ⟨_, hsum, u.seconds, by omega, by omega⟩

/-- The clock tells the time of as many seconds after its start as there are seconds behind the
sign. -/
theorem exists_after_epoch :
    (∃ u, epoch.after? s = some u) ↔ s.seconds.toNat ≤ 0x7fffffffffffffff := by
  have hepoch : epoch.total = 0 := rfl
  simp only [after?_eq_some_iff, hepoch, Int.zero_add]
  constructor
  · rintro ⟨u, hu⟩
    have hlast := u.seconds.toInt_le
    have hns := u.nanoseconds.isLt
    rw [Int64.toInt_maxValue] at hlast
    unfold total Span.total at hu
    omega
  · intro h
    refine ⟨⟨.ofInt s.seconds.toNat, s.nanoseconds⟩, ?_⟩
    show 1000000000 * (Int64.ofInt s.seconds.toNat).toInt + (s.nanoseconds.val : Int) = s.total
    rw [Int64.toInt_ofInt_of_le (by omega) (by omega), Span.total, Int.natCast_add,
      Int.natCast_mul]
    rfl

end ClockTime

/-! ## Texts of times -/

namespace RaiseTime

/-- Whether a text is one or more digits that write `n`. -/
def IsCount (cs : List Char) (n : Nat) : Prop :=
  IsDecimal cs ∧ Nat.ofDigitChars 10 cs 0 = n

/-- Whether a text tells the time `t`: whole seconds that the clock counts, and behind a point, if
there is one, a number of milliseconds that make up no second. -/
inductive IsTime : List Char → RaiseTime → Prop
  | whole {whole : List Char} {seconds : Nat} : IsCount whole seconds →
    seconds ≤ 0x7fffffffffffffff → IsTime whole ⟨seconds, 0⟩
  | parted {whole part : List Char} {seconds milliseconds : Nat} : IsCount whole seconds →
    IsCount part milliseconds → seconds ≤ 0x7fffffffffffffff → milliseconds < 1000 →
    IsTime (whole ++ '.' :: part) ⟨seconds, milliseconds⟩

variable {cs whole part : List Char} {t : RaiseTime} {n : Nat}

theorem IsTime.seconds_le (h : IsTime cs t) : t.seconds ≤ 0x7fffffffffffffff := by
  cases h with
  | whole _ hlast => exact hlast
  | parted _ _ hlast => exact hlast

theorem IsTime.milliseconds_lt (h : IsTime cs t) : t.milliseconds < 1000 := by
  cases h with
  | whole => exact Nat.succ_pos 999
  | parted _ _ _ hlt => exact hlt

theorem IsTime.not_blank (h : IsTime cs t) : ∀ c ∈ cs, isBlank c = false := by
  cases h with
  | whole h => exact h.1.not_blank
  | parted hwhole hpart =>
    exact List.forall_mem_append.2
      ⟨hwhole.1.not_blank, List.forall_mem_cons.2 ⟨by decide, hpart.1.not_blank⟩⟩

theorem IsTime.trim_eq {text : List Char} (h : IsTime cs t) (htext : IsPadded cs text) :
    trim text = cs := by
  refine htext.trim_eq_of_not_blank ?_ h.not_blank
  cases h with
  | whole h => exact h.1.ne_nil
  | parted => simp

theorem IsCount.not_mem (h : IsCount cs n) {c : Char} (hc : c.isDigit = false) : c ∉ cs :=
  fun hmem => by simpa [hc] using h.1.digits c hmem

theorem cut?_parted (h : IsCount whole n) (part : List Char) :
    Path.cut? '.' (whole ++ '.' :: part) = some (whole, part) :=
  Path.cut?_eq_some_iff.2 ⟨rfl, h.not_mem rfl⟩

theorem isTime_of_cut?_none (h : Path.cut? '.' cs = none) : IsTime cs t ↔
    IsCount cs t.seconds ∧ t.seconds ≤ 0x7fffffffffffffff ∧ t.milliseconds = 0 := by
  constructor
  · intro ht
    cases ht with
    | whole hwhole hlast => exact ⟨hwhole, hlast, rfl⟩
    | parted hwhole => simp [cut?_parted hwhole] at h
  · obtain ⟨seconds, milliseconds⟩ := t
    rintro ⟨hwhole, hlast, rfl⟩
    exact .whole hwhole hlast

theorem isTime_of_cut?_some (h : Path.cut? '.' cs = some (whole, part)) : IsTime cs t ↔
    IsCount whole t.seconds ∧ t.seconds ≤ 0x7fffffffffffffff ∧ IsCount part t.milliseconds ∧
      t.milliseconds < 1000 := by
  constructor
  · intro ht
    cases ht with
    | whole hwhole =>
      obtain ⟨rfl, -⟩ := Path.cut?_eq_some_iff.1 h
      exact absurd (List.mem_append_right whole List.mem_cons_self) (hwhole.not_mem rfl)
    | parted hwhole hpart hlast hlt =>
      rw [cut?_parted hwhole, Option.some.injEq, Prod.mk.injEq] at h
      obtain ⟨rfl, rfl⟩ := h
      exact ⟨hwhole, hlast, hpart, hlt⟩
  · rintro ⟨hwhole, hlast, hpart, hlt⟩
    obtain ⟨rfl, -⟩ := Path.cut?_eq_some_iff.1 h
    exact .parted hwhole hpart hlast hlt

theorem natural?_eq_some_iff_isCount {bound : Nat} :
    natural? 10 bound cs = some n ↔ IsCount cs n ∧ n < bound := by
  rw [natural?_ten_eq_some_iff, IsCount, and_assoc]

theorem isCount_zero : IsCount ['0'] n ↔ n = 0 := by
  have hzero : IsDecimal ['0'] := isDecimal_replicate_append 0 0
  exact ⟨fun h => h.2.symm, fun h => ⟨hzero, h.symm⟩⟩

theorem read?_eq_some_iff (s : String) (t : RaiseTime) :
    read? s = some t ↔ IsTime (trim s.toList) t := by
  have hboth : read? s = some t ↔
      natural? 10 secondsBound ((Path.cut? '.' (trim s.toList)).getD (trim s.toList, ['0'])).1 =
          some t.seconds ∧
        natural? 10 1000 ((Path.cut? '.' (trim s.toList)).getD (trim s.toList, ['0'])).2 =
          some t.milliseconds := by
    obtain ⟨seconds, milliseconds⟩ := t
    unfold read?
    dsimp only
    split
    · rename_i hwhole hpart
      rw [hwhole, hpart, Option.some.injEq, mk.injEq, Option.some.injEq, Option.some.injEq]
    · rename_i hnone
      simp only [reduceCtorEq, false_iff]
      exact fun h => hnone _ _ h.1 h.2
  have hlast : t.seconds < secondsBound ↔ t.seconds ≤ 0x7fffffffffffffff := Nat.lt_succ_iff
  rw [hboth, natural?_eq_some_iff_isCount, natural?_eq_some_iff_isCount, hlast, and_assoc]
  rcases hcut : Path.cut? '.' (trim s.toList) with _ | ⟨whole, part⟩
  · rw [isTime_of_cut?_none hcut, Option.getD_none, isCount_zero]
    refine and_congr_right fun _ => and_congr_right fun _ => and_iff_left_of_imp ?_
    omega
  · rw [isTime_of_cut?_some hcut, Option.getD_some]

end RaiseTime

/-! ## Spans that are read -/

namespace Span

variable {cs : List Char} {d : Span} {m n : UInt64}

theorem digits?_eq_some_iff : digits? cs = some n ↔ RaiseTime.IsCount cs n.toNat := by
  have hdecimal : cs ≠ [] ∧ cs.all Char.isDigit = true ↔ IsDecimal cs := by
    rw [List.all_eq_true]
    exact ⟨fun h => ⟨h.1, h.2⟩, fun h => ⟨h.ne_nil, h.digits⟩⟩
  unfold digits? RaiseTime.IsCount
  split
  · rename_i h
    have hcs := hdecimal.1 h
    have hhead : ∀ c : Char, c.isDigit = false → cs.head? ≠ some c := fun c hc hhead => by
      simpa [hc] using hcs.digits c (List.mem_of_mem_head? hhead)
    simp only [Option.map_eq_some_iff, positive?_ten_eq_some_iff (hhead '-' rfl),
      isNumeral_plain (hhead '+' rfl) (hhead '-' rfl), Int.ofNat_inj]
    constructor
    · rintro ⟨v, ⟨⟨-, rfl⟩, hv⟩, rfl⟩
      exact ⟨hcs, (UInt64.toNat_ofNat_of_lt' hv).symm⟩
    · rintro ⟨-, hn⟩
      exact ⟨_, ⟨⟨hcs, hn.symm⟩, n.toNat_lt⟩, UInt64.ofNat_toNat⟩
  · rename_i h
    simp only [reduceCtorEq, false_iff]
    exact fun hcs => h (hdecimal.2 hcs.1)

/-- Whether a span is as long as the time `t` is late, told in nanoseconds and in milliseconds. -/
structure Measures (d : Span) (t : RaiseTime) : Prop where
  seconds : d.seconds.toNat = t.seconds
  nanoseconds : d.nanoseconds.val = 1000000 * t.milliseconds
  milliseconds : d.milliseconds = 1000 * t.seconds + t.milliseconds

theorem total_ofMilliseconds (n : UInt64) : (ofMilliseconds n).total = 1000000 * n.toNat := by
  have hdiv : (n / 1000).toNat = n.toNat / 1000 := UInt64.toNat_div n 1000
  have hmod : (n % 1000).toNat = n.toNat % 1000 := UInt64.toNat_mod n 1000
  show 1000000000 * (n / 1000).toNat + (n % 1000).toNat * 1000000 % 1000000000 = _
  omega

theorem measures_iff (hm : m.toNat < 1000) : d.Measures ⟨n.toNat, m.toNat⟩ ↔
    d.total = 1000000000 * n.toNat + 1000000 * m.toNat := by
  have hd := d.nanoseconds.isLt
  constructor
  · intro h
    rw [total, h.seconds, h.nanoseconds]
  · unfold total
    intro h
    have hseconds : d.seconds.toNat = n.toNat := by omega
    have hnanoseconds : d.nanoseconds.val = 1000000 * m.toNat := by omega
    refine ⟨hseconds, hnanoseconds, ?_⟩
    rw [Span.milliseconds, hseconds, hnanoseconds, Nat.mul_div_cancel_left _ (by decide),
      Nat.mul_comm]

/-- Seconds and milliseconds make up a span without loss, and none if the clock does not count so
many seconds. -/
theorem tellable?_eq_some_iff (hm : m.toNat < 1000) : tellable? n m = some d ↔
    d.Measures ⟨n.toNat, m.toNat⟩ ∧ n.toNat ≤ 0x7fffffffffffffff := by
  have hseconds : (ofSeconds n).total = 1000000000 * n.toNat := rfl
  rw [measures_iff hm]
  simp only [tellable?, Option.bind_eq_bind, Option.bind_eq_some_iff, Option.pure_def,
    Option.some.injEq, plus?_eq_some_iff, hseconds, total_ofMilliseconds]
  constructor
  · rintro ⟨d, hd, u, hu, rfl⟩
    have hseconds := ClockTime.exists_after_epoch.1 ⟨u, hu⟩
    have hns := d.nanoseconds.isLt
    unfold total at hd
    exact ⟨hd, by omega⟩
  · rintro ⟨hd, hn⟩
    have hns := d.nanoseconds.isLt
    have hseconds : d.seconds.toNat ≤ 0x7fffffffffffffff := by
      unfold total at hd
      omega
    obtain ⟨u, hu⟩ := ClockTime.exists_after_epoch.2 hseconds
    exact ⟨d, hd, u, hu, rfl⟩

theorem exists_word {k : Nat} (hk : k ≤ 0x7fffffffffffffff) : ∃ n : UInt64, n.toNat = k :=
  ⟨.ofNat k, UInt64.toNat_ofNat_of_lt' (Nat.lt_of_le_of_lt hk (by decide))⟩

theorem Measures.unique {t t' : RaiseTime} (h : d.Measures t) (h' : d.Measures t') : t = t' := by
  have hseconds := h.seconds.symm.trans h'.seconds
  have hnanoseconds := h.nanoseconds.symm.trans h'.nanoseconds
  obtain ⟨_, _⟩ := t
  obtain ⟨_, _⟩ := t'
  rw [RaiseTime.mk.injEq]
  exact ⟨hseconds, Nat.eq_of_mul_eq_mul_left (by decide) hnanoseconds⟩

theorem exists_measures {t : RaiseTime} (hseconds : t.seconds ≤ 0x7fffffffffffffff)
    (hmilliseconds : t.milliseconds < 1000) : ∃ d, Measures d t := by
  obtain ⟨seconds, milliseconds⟩ := t
  obtain ⟨n, rfl⟩ := exists_word hseconds
  obtain ⟨m, rfl⟩ := exists_word (Nat.le_of_lt (Nat.lt_trans hmilliseconds (by decide)))
  have hlt : 1000000 * m.toNat < 1000000000 := by
    dsimp only at hmilliseconds
    omega
  exact ⟨⟨n, ⟨1000000 * m.toNat, hlt⟩⟩, (measures_iff hmilliseconds).2 rfl⟩

theorem read?_eq_some_iff (s : String) (d : Span) : read? s = some d ↔
    ∃ t, RaiseTime.IsTime (trim s.toList) t ∧ d.Measures t := by
  unfold read?
  generalize trim s.toList = cs
  dsimp only
  rcases hcut : Path.cut? '.' cs with _ | ⟨whole, part⟩
  · simp only [RaiseTime.isTime_of_cut?_none hcut, Option.bind_eq_bind, Option.bind_eq_some_iff,
      digits?_eq_some_iff, Option.some.injEq, exists_eq_left']
    constructor
    · rintro ⟨n, hn, h⟩
      obtain ⟨hd, hlast⟩ := (tellable?_eq_some_iff (by decide)).1 h
      exact ⟨_, ⟨hn, hlast, rfl⟩, hd⟩
    · rintro ⟨⟨_, _⟩, ⟨hn, hlast, rfl⟩, hd⟩
      obtain ⟨n, rfl⟩ := exists_word hlast
      exact ⟨n, hn, (tellable?_eq_some_iff (by decide)).2 ⟨hd, hlast⟩⟩
  · simp only [RaiseTime.isTime_of_cut?_some hcut, Option.bind_eq_bind, Option.bind_eq_some_iff,
      digits?_eq_some_iff, Option.filter_eq_some_iff, decide_eq_true_eq]
    constructor
    · rintro ⟨n, hn, m, ⟨hm, hlt⟩, h⟩
      obtain ⟨hd, hlast⟩ := (tellable?_eq_some_iff hlt).1 h
      exact ⟨_, ⟨hn, hlast, hm, hlt⟩, hd⟩
    · rintro ⟨⟨_, _⟩, ⟨hn, hlast, hm, hlt⟩, hd⟩
      obtain ⟨n, rfl⟩ := exists_word hlast
      obtain ⟨m, rfl⟩ := exists_word (Nat.le_of_lt (Nat.lt_trans hlt (by decide)))
      exact ⟨n, hn, m, ⟨hm, hlt⟩, (tellable?_eq_some_iff hlt).2 ⟨hd, hlast⟩⟩

example : read? "9223372036854775808" = none ∧ read? "1.1000" = none := by
  decide +kernel

/-- Each text of a time is read as a span, and no other text is. -/
theorem isTime_iff (s : String) (t : RaiseTime) :
    RaiseTime.IsTime (trim s.toList) t ↔ ∃ d, read? s = some d ∧ d.Measures t := by
  simp only [read?_eq_some_iff]
  constructor
  · intro ht
    obtain ⟨d, hd⟩ := exists_measures ht.seconds_le ht.milliseconds_lt
    exact ⟨d, ⟨t, ht, hd⟩, hd⟩
  · rintro ⟨d, ⟨t', ht', hd'⟩, hd⟩
    rwa [hd.unique hd']

/-- The clock tells the time of each span that is read. -/
theorem exists_after_of_read? {s : String} {d : Span} (h : read? s = some d) :
    ∃ u, ClockTime.epoch.after? d = some u ∧ u.total = d.total := by
  obtain ⟨t, ht, hd⟩ := (read?_eq_some_iff s d).1 h
  have hlast : d.seconds.toNat ≤ 0x7fffffffffffffff := hd.seconds ▸ ht.seconds_le
  obtain ⟨u, hu⟩ := ClockTime.exists_after_epoch.2 hlast
  exact ⟨u, hu, by rw [ClockTime.after?_eq_some_iff.1 hu]; exact Int.zero_add _⟩

end Span

/-! ## Decimal texts of times -/

namespace RaiseTime

variable {t : RaiseTime}

/-- A time in decimal. -/
def text (t : RaiseTime) : String :=
  toString t.seconds ++ "." ++ toString t.milliseconds

theorem isCount_toString (n : Nat) : IsCount (toString n).toList n := by
  rw [Nat.toString_eq_repr, Nat.toList_repr]
  exact ⟨isDecimal_replicate_append n 0, Nat.ofDigitChars_ten_toDigits⟩

theorem isTime_text (hseconds : t.seconds ≤ 0x7fffffffffffffff)
    (hmilliseconds : t.milliseconds < 1000) : IsTime t.text.toList t := by
  rw [text, String.toList_append, String.toList_append, List.append_assoc]
  exact .parted (isCount_toString _) (isCount_toString _) hseconds hmilliseconds

end RaiseTime

/-! ## Events -/

/-- Whether the first element of a document that is an event tells its class and its time. -/
def Tree.Tells (document : Tree Label) (eventClass : String) (t : RaiseTime) : Prop :=
  ∃ element time, document.IsFirstChild "event" element ∧
    element.IsFirstValue "class" eventClass ∧ eventClass ≠ "" ∧
    element.IsFirstValue "raise_time" time ∧ RaiseTime.IsTime (trim time.toList) t

/-- Whether an event drawn along the links is one drawn from the tree, or both fail for the same
cause. -/
inductive Event.Matches : Except Fault Event → Except EventFault LinkedEvent → Prop
  | ok {e : Event} {l : LinkedEvent} : l.eventClass = e.eventClass →
    l.raiseTime.Measures e.raised → l.raisedAt.total = l.raiseTime.total → Matches (.ok e) (.ok l)
  | error {cause : Malformed} : Matches (.error (.malformed cause)) (.error (.malformed cause))

namespace Event

variable {document element : Tree Label} {eventClass : String} {t : RaiseTime}

theorem ofDocument_eq_ok_iff {e : Event} : ofDocument document = .ok e ↔
    e.document = document ∧ document.childNamed? elementName = some e.element ∧
      e.element.attribute? "class" = some e.eventClass ∧ e.eventClass ≠ "" ∧
      ∃ time, e.element.attribute? "raise_time" = some time ∧
        RaiseTime.read? time = some e.raised := by
  constructor
  · fun_cases ofDocument document with
    | case6 element helement name hclass hne time htime raised hread =>
      rintro ⟨⟩
      exact ⟨rfl, helement, hclass, hne, time, htime, hread⟩
    | _ => exact nofun
  · obtain ⟨_, element, name, raised⟩ := e
    rintro ⟨rfl, helement, hclass, hne, time, htime, hread⟩
    simp only [ofDocument, helement, hclass, if_neg hne, htime, hread]

theorem tells_iff (document : Tree Label) (eventClass : String) (t : RaiseTime) :
    document.Tells eventClass t ↔
      ∃ e, ofDocument document = .ok e ∧ e.eventClass = eventClass ∧ e.raised = t := by
  simp only [Tree.Tells, ← Tree.childNamed?_eq_some_iff, ← Tree.attribute?_eq_some_iff,
    ← RaiseTime.read?_eq_some_iff, ofDocument_eq_ok_iff]
  constructor
  · rintro ⟨element, time, helement, hclass, hne, htime, hread⟩
    exact ⟨⟨document, element, eventClass, t⟩,
      ⟨rfl, helement, hclass, hne, time, htime, hread⟩, rfl, rfl⟩
  · rintro ⟨e, ⟨-, helement, hclass, hne, time, htime, hread⟩, rfl, rfl⟩
    exact ⟨e.element, time, helement, hclass, hne, htime, hread⟩

theorem Matches.ne_outOfRange {outcome : Except Fault Event} {r : Except EventFault LinkedEvent}
    (h : Matches outcome r) (time : String) : r ≠ .error (.outOfRange time) := by
  rintro rfl
  cases h

theorem Matches.exists_ok_iff {outcome : Except Fault Event} {r : Except EventFault LinkedEvent}
    (h : Matches outcome r) :
    (∃ e, outcome = .ok e ∧ e.eventClass = eventClass ∧ e.raised = t) ↔
      ∃ l, r = .ok l ∧ l.eventClass = eventClass ∧ l.raiseTime.Measures t ∧
        l.raisedAt.total = l.raiseTime.total := by
  cases h with
  | ok hclass hmeasures htotal =>
    simp only [Except.ok.injEq, exists_eq_left', hclass]
    refine and_congr_right fun _ => ⟨?_, fun ⟨ht, _⟩ => hmeasures.unique ht⟩
    rintro rfl
    exact ⟨hmeasures, htotal⟩
  | error => simp

/-- The two readers of times take the same texts. -/
theorem read?_cases (time : String) : RaiseTime.read? time = none ∧ Span.read? time = none ∨
    ∃ t d, RaiseTime.read? time = some t ∧ Span.read? time = some d ∧ d.Measures t := by
  rcases hread : RaiseTime.read? time with _ | t
  · refine .inl ⟨rfl, Option.eq_none_iff_forall_ne_some.2 fun d hd => ?_⟩
    obtain ⟨t, ht, -⟩ := (Span.read?_eq_some_iff time d).1 hd
    rw [(RaiseTime.read?_eq_some_iff time t).2 ht] at hread
    simp at hread
  · have ht := (RaiseTime.read?_eq_some_iff time t).1 hread
    obtain ⟨d, hspan, hd⟩ := (Span.isTime_iff time t).1 ht
    exact .inr ⟨t, d, rfl, hspan, hd⟩

theorem matches_ofLabel (h : document.childNamed? elementName = some element) (root : NodeId) :
    Matches (ofDocument document) (LinkedEvent.ofLabel root element.node) := by
  rw [ofDocument, LinkedEvent.ofLabel, h]
  dsimp only
  have hlabel : ∀ name, element.node.attribute? name = element.attribute? name := fun _ => rfl
  rw [hlabel, hlabel]
  rcases element.attribute? "class" with _ | name
  · exact .error
  · by_cases hname : name = ""
    · subst hname
      exact .error
    · have hfilter : (some name).filter (· ≠ "") = some name := by simp [hname]
      dsimp only
      rw [if_neg hname, hfilter]
      rcases element.attribute? "raise_time" with _ | time
      · exact .error
      · rcases read?_cases time with ⟨hread, hspan⟩ | ⟨t, d, hread, hspan, hd⟩
        · simp only [LinkedEvent.demand, hread, hspan, bind, Except.bind]
          exact .error
        · obtain ⟨u, hu, htotal⟩ := Span.exists_after_of_read? hspan
          simp only [LinkedEvent.demand, hread, hspan, bind, Except.bind, hu]
          exact .ok rfl hd htotal

end Event

/-- Along the links, the event of a document is the one that its tree holds. -/
theorem ReachedDocument.event (d : ReachedDocument) : ∃ r, d.links.event = some r ∧
    Event.Matches (Event.ofDocument d.document.tree.labels) r := by
  have hroot : d.links.root = d.document.tree.node.id := d.holds.root
  have hfirst := d.root.standing.firstChildNamed Event.elementName
  have hlabels := d.document.tree.childNamed?_labels Event.elementName
  change d.links.firstChildNamed d.document.tree.node.id _ =
    some ((d.document.tree.childNamed? _).map _) at hfirst
  rw [LinkedDocument.event, hroot, hfirst]
  rcases hchild : d.document.tree.childNamed? Event.elementName with _ | u <;>
    rw [hchild] at hlabels
  · refine ⟨_, rfl, ?_⟩
    rw [Event.ofDocument, hlabels]
    exact .error
  · obtain ⟨-, ⟨_, _, _, hu⟩, -⟩ := d.root.standing.of_childNamed? hchild
    have hu : d.links.get? u.node.id = _ := hu
    refine ⟨LinkedEvent.ofLabel u.node.id u.node.label, ?_, Event.matches_ofLabel hlabels _⟩
    simp only [Option.bind_eq_bind, Option.bind_some, Option.map_some, hu, Option.pure_def]

/-- The texts of times are told exactly, and each time has one. A span that is read is as long as
the text says, to the millisecond, so that nothing is lost in its sum or past the end of the clock.
A document holds an event exactly if its first event element tells a class and a time; along the
links, no time that is read is out of range. -/
theorem RaiseTime.times_exact :
    (∀ s t, read? s = some t ↔ IsTime (trim s.toList) t) ∧
    (∀ s t, IsTime (trim s.toList) t ↔ ∃ d, Span.read? s = some d ∧ d.Measures t) ∧
    (∀ s d, Span.read? s = some d ↔ ∃ t, IsTime (trim s.toList) t ∧ d.Measures t) ∧
    (∀ (t : RaiseTime) (s : String), t.seconds ≤ 0x7fffffffffffffff → t.milliseconds < 1000 →
      IsPadded t.text.toList s.toList → read? s = some t) ∧
    (∀ document eventClass t, document.Tells eventClass t ↔
      ∃ e, Event.ofDocument document = .ok e ∧ e.eventClass = eventClass ∧ e.raised = t) ∧
    ∀ d : ReachedDocument, ∃ r, d.links.event = some r ∧ (∀ time, r ≠ .error (.outOfRange time)) ∧
      ∀ eventClass t, d.document.tree.labels.Tells eventClass t ↔
        ∃ e, r = .ok e ∧ e.eventClass = eventClass ∧ e.raiseTime.Measures t ∧
          e.raisedAt.total = e.raiseTime.total := by
  refine ⟨read?_eq_some_iff, Span.isTime_iff, Span.read?_eq_some_iff,
    fun t s hseconds hmilliseconds hs => ?_, Event.tells_iff, fun d => ?_⟩
  · have ht := isTime_text hseconds hmilliseconds
    rwa [read?_eq_some_iff, ht.trim_eq hs]
  · obtain ⟨r, hr, hmatches⟩ := d.event
    refine ⟨r, hr, hmatches.ne_outOfRange, fun eventClass t => ?_⟩
    rw [Event.tells_iff, hmatches.exists_ok_iff]

/-- The last millisecond that the clock tells. -/
theorem RaiseTime.times_exact_last : (⟨9223372036854775807, 999⟩ : RaiseTime).text =
    "9223372036854775807.999" ∧
    read? " 9223372036854775807.999\n" = some ⟨9223372036854775807, 999⟩ :=
  ⟨by decide, times_exact.2.2.2.1 ⟨9223372036854775807, 999⟩ _ (by decide) (by decide)
    ⟨[' '], ['\n'], by decide, List.forall_mem_singleton.2 rfl, List.forall_mem_singleton.2 rfl⟩⟩

end Treegram
