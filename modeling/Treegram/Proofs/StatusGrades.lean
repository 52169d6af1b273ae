import Mathlib.Data.Nat.Bitwise
import Treegram.Proofs.AbridgedTexts
import Treegram.Proofs.CodeTexts
import Treegram.Proofs.FirstNamed
import Treegram.Proofs.FlagTexts
import Treegram.Proofs.StatusTexts
import Treegram.Status.Packed

/-!
# How grave a status is

The severity of a status is told by the element that holds it. It stands in the status, in the two
high bits of its code, and in the top bit alone as failure; the three agree (`grades_exact`),
whatever number the code is made of. What the shifts and masks make of a code is told by division
and remainder (`StatusCode.toldByBits`).
-/

namespace Treegram

namespace StatusCode

variable {x mask shift : UInt32} {k : Nat}

/-! ## Parts of a code -/

theorem toNat_and_mask (hmask : mask.toNat = 2 ^ k - 1) :
    (x &&& mask).toNat = x.toNat % 2 ^ k := by
  rw [UInt32.toNat_and, hmask, Nat.and_two_pow_sub_one_eq_mod]

theorem toNat_shiftRight_of_lt (hshift : shift.toNat < 32) :
    (x >>> shift).toNat = x.toNat / 2 ^ shift.toNat := by
  rw [UInt32.toNat_shiftRight, Nat.mod_eq_of_lt hshift, Nat.shiftRight_eq_div_pow]

theorem toNat_severityShift : (x >>> severityShift).toNat = x.toNat / 0x40000000 :=
  toNat_shiftRight_of_lt (by decide)

theorem severityField_eq (c : StatusCode) : c.severityField = c.severity := by
  have hraw := c.raw.toNat_lt
  rw [severityField, toNat_and_mask (k := 2) rfl, toNat_severityShift, severity,
    Nat.mod_eq_of_lt (by omega)]

theorem toNat_groupField (c : StatusCode) : c.groupField.toNat = c.group := by
  have hshift : (c.raw >>> groupShift).toNat = c.raw.toNat / 0x10000 :=
    toNat_shiftRight_of_lt (by decide)
  rw [groupField, UInt32.toNat_toUInt16, toNat_and_mask (k := 12) rfl, hshift, group]
  omega

theorem toNat_localField (c : StatusCode) : c.localField.toNat = c.localCode := by
  rw [localField, UInt32.toNat_toUInt16, toNat_and_mask (k := 16) rfl, localCode]
  omega

theorem hasFailedBit_eq (c : StatusCode) : c.hasFailedBit = c.isFailed := by
  have hraw := c.raw.toNat_lt
  have hbit : c.raw.toNat.testBit 31 = decide (0x80000000 ≤ c.raw.toNat) := by
    rw [Nat.testBit_eq_decide_div_mod_eq, decide_eq_decide]
    omega
  have hfailedBit : failedBit.toNat = 2 ^ 31 := rfl
  have hand : (c.raw &&& failedBit).toNat = c.isFailed.toNat * 2 ^ 31 := by
    rw [UInt32.toNat_and, hfailedBit, Nat.and_two_pow, hbit, isFailed]
  have hzero : c.raw &&& failedBit = 0 ↔ c.isFailed = false := by
    rw [← UInt32.toNat_inj, hand]
    cases c.isFailed <;> simp
  rw [hasFailedBit]
  cases h : c.isFailed <;> simp [hzero, h]

/-! ## Codes put together -/

theorem toNat_new (severity : Severity) (group localCode : Nat) :
    (new severity group localCode).raw.toNat =
      severity.bits * 0x40000000 + group % 0x1000 * 0x10000 + localCode % 0x10000 := by
  have hbits : severity.bits < 4 := by cases severity <;> decide
  exact UInt32.toNat_ofNat_of_lt' (by unfold UInt32.size; omega)

/-- The parts of a code do not overlap, so to join them is to add them. -/
theorem pack_eq (severity : Severity) (group localCode : UInt16) :
    pack severity group localCode = new severity group.toNat localCode.toNat := by
  have hlocal := localCode.toNat_lt
  have hseverity : (UInt32.ofNat severity.bits <<< severityShift).toNat =
      2 ^ 30 * severity.bits := by
    cases severity <;> rfl
  have hgroup : ((group.toUInt32 &&& groupMask) <<< groupShift).toNat =
      2 ^ 16 * (group.toNat % 2 ^ 12) := by
    have hshift : groupShift.toNat % 32 = 16 := rfl
    rw [UInt32.toNat_shiftLeft, toNat_and_mask (k := 12) rfl, Nat.shiftLeft_eq,
      UInt16.toNat_toUInt32, hshift]
    omega
  have hjoined : (pack severity group localCode).raw.toNat =
      (new severity group.toNat localCode.toNat).raw.toNat := by
    have hhigh : 2 ^ 30 * severity.bits + 2 ^ 16 * (group.toNat % 2 ^ 12) =
        2 ^ 16 * (2 ^ 14 * severity.bits + group.toNat % 2 ^ 12) := by
      omega
    rw [pack, UInt32.toNat_or, UInt32.toNat_or, hseverity, hgroup, UInt16.toNat_toUInt32,
      ← Nat.two_pow_add_eq_or_of_lt (by omega), hhigh, ← Nat.two_pow_add_eq_or_of_lt hlocal,
      toNat_new]
    omega
  exact congrArg mk (UInt32.toNat_inj.1 hjoined)

theorem repack_eq (c : StatusCode) (severity : Severity) :
    c.repack severity = c.retag severity := by
  rw [repack, pack_eq, toNat_groupField, toNat_localField, retag]

/-- Whether the parts of a code, and the code under another severity, are what shifts and masks make
of it. -/
structure ToldByBits (c : StatusCode) : Prop where
  severity : c.severity = c.severityField
  group : c.group = c.groupField.toNat
  localCode : c.localCode = c.localField.toNat
  isFailed : c.isFailed = c.hasFailedBit
  retag : ∀ severity, c.retag severity = c.repack severity

theorem toldByBits (c : StatusCode) : c.ToldByBits where
  severity := c.severityField_eq.symm
  group := c.toNat_groupField.symm
  localCode := c.toNat_localField.symm
  isFailed := c.hasFailedBit_eq.symm
  retag severity := (c.repack_eq severity).symm

/-! ## The severity in a code -/

theorem isFailed_eq (c : StatusCode) : c.isFailed = c.severity.isFailure := by
  have hraw := c.raw.toNat_lt
  have hbits : ∀ n < 4, (Severity.ofBits n).isFailure = decide (2 ≤ n) := by decide
  rw [severity, hbits _ (by omega), isFailed, decide_eq_decide]
  omega

theorem severity_retag (c : StatusCode) (severity : Severity) :
    (c.retag severity).severity = severity := by
  have hbits : (c.retag severity).raw.toNat / 0x40000000 = severity.bits := by
    rw [retag, toNat_new]
    omega
  rw [StatusCode.severity, hbits]
  cases severity <;> rfl

/-- Whether a code consists of a severity and of the group and the local code of a number. Nothing
else of the number is in it. -/
structure Carries (c : StatusCode) (severity : Severity) (raw : UInt32) : Prop where
  bits : (c.raw >>> severityShift).toNat = severity.bits
  severityField : c.severityField = severity
  failed : c.hasFailedBit = true ↔ severity = .error ∨ severity = .critical
  reserved : (c.raw >>> 28) &&& 0b11 = 0
  groupField : c.groupField = StatusCode.groupField ⟨raw⟩
  localField : c.localField = StatusCode.localField ⟨raw⟩

theorem carries_retag (raw : UInt32) (severity : Severity) :
    (retag ⟨raw⟩ severity).Carries severity raw where
  bits := by
    rw [toNat_severityShift, retag, toNat_new]
    omega
  severityField := by rw [severityField_eq, severity_retag]
  failed := by
    rw [hasFailedBit_eq, isFailed_eq, severity_retag]
    cases severity <;> decide
  reserved := by
    have hshift : ((retag ⟨raw⟩ severity).raw >>> 28).toNat =
        (retag ⟨raw⟩ severity).raw.toNat / 0x10000000 := toNat_shiftRight_of_lt (by decide)
    refine UInt32.toNat_inj.1 ?_
    rw [toNat_and_mask (k := 2) rfl, hshift, retag, toNat_new, UInt32.toNat_zero]
    omega
  groupField := by
    refine UInt16.toNat_inj.1 ?_
    rw [toNat_groupField, toNat_groupField, group, retag, toNat_new, group]
    omega
  localField := by
    refine UInt16.toNat_inj.1 ?_
    rw [toNat_localField, toNat_localField, localCode, retag, toNat_new, localCode]
    omega

end StatusCode

/-! ## What tells the severity -/

namespace Tree

variable {response holder t : Tree Label} {name : String} {yes no severity : Severity}

/-- Whether the severity is what the first attribute of the name tells: `yes` if it stands for true,
`no` if it stands for false. -/
def TellsSeverity (t : Tree Label) (name : String) (yes no severity : Severity) : Prop :=
  ∃ value core set, t.IsFirstValue name value ∧ IsPadded core value.toList ∧
    Flag.Stands core set ∧ severity = if set then yes else no

theorem severity?_eq_some_iff :
    t.severity? name yes no = some severity ↔ t.TellsSeverity name yes no severity := by
  simp only [severity?, Option.map_eq_some_iff, Option.bind_eq_some_iff, attribute?_eq_some_iff,
    Flag.flag?_eq_some_iff, TellsSeverity]
  constructor
  · rintro ⟨set, ⟨value, hvalue, core, hcore, hset⟩, rfl⟩
    exact ⟨value, core, set, hvalue, hcore, hset, rfl⟩
  · rintro ⟨value, core, set, hvalue, hcore, hset, rfl⟩
    exact ⟨set, ⟨value, hvalue, core, hcore, hset⟩, rfl⟩

/-- Whether `holder` holds the status of a response, of the given severity. Only where no child is a
`message` element, an `error` element does. -/
inductive HasStatus (response : Tree Label) : Tree Label → Severity → Prop
  | message {holder : Tree Label} {severity : Severity} : response.IsFirstChild "message" holder →
    holder.TellsSeverity "warning" .warning .info severity → HasStatus response holder severity
  | error {holder : Tree Label} {severity : Severity} :
    (∀ t ∈ response.children.trees, ¬t.IsElement "message") →
    response.IsFirstChild "error" holder →
    holder.TellsSeverity "critical" .critical .error severity → HasStatus response holder severity

theorem holder?_eq_some_iff :
    Status.holder? response = some (holder, severity) ↔ response.HasStatus holder severity := by
  rw [Status.holder?_eq]
  constructor
  · intro h
    rcases hmessage : response.childNamed? "message" with _ | t <;> rw [hmessage] at h
    · obtain ⟨t, ht, h⟩ := Option.bind_eq_some_iff.1 h
      obtain ⟨severity, hseverity, ⟨⟩⟩ := Option.map_eq_some_iff.1 h
      exact .error (childNamed?_eq_none_iff.1 hmessage) (childNamed?_eq_some_iff.1 ht)
        (severity?_eq_some_iff.1 hseverity)
    · obtain ⟨severity, hseverity, ⟨⟩⟩ := Option.map_eq_some_iff.1 h
      exact .message (childNamed?_eq_some_iff.1 hmessage) (severity?_eq_some_iff.1 hseverity)
  · rintro (⟨hmessage, hseverity⟩ | ⟨hmessage, herror, hseverity⟩)
    · rw [childNamed?_eq_some_iff.2 hmessage]
      simp only [severity?_eq_some_iff.2 hseverity, Option.map_some]
    · rw [childNamed?_eq_none_iff.2 hmessage, childNamed?_eq_some_iff.2 herror]
      simp only [severity?_eq_some_iff.2 hseverity, Option.bind_some, Option.map_some]

/-- Whether `raw` is the number of the first `code` attribute, which is zero where there is none or
it is not that of a code. -/
inductive HoldsNumber (holder : Tree Label) : UInt32 → Prop
  | told {value : String} {core : List Char} {raw : UInt32} : holder.IsFirstValue "code" value →
    IsPadded core value.toList → IsCode core raw.toNat → HoldsNumber holder raw
  | untold : (∀ value core, ∀ raw : UInt32, holder.IsFirstValue "code" value →
    IsPadded core value.toList → ¬IsCode core raw.toNat) → HoldsNumber holder 0

theorem holdsNumber_codeOf (holder : Tree Label) :
    holder.HoldsNumber (Status.codeOf holder).raw := by
  rw [Status.codeOf]
  rcases hread : (holder.attribute? "code").bind StatusCode.number? with _ | raw
  · refine .untold fun value core raw hvalue hcore hcode => ?_
    rw [attribute?_eq_some_iff.2 hvalue, Option.bind_some,
      StatusCode.number?_of_isCode hcode hcore] at hread
    exact absurd hread (Option.some_ne_none raw)
  · obtain ⟨value, hvalue, hraw⟩ := Option.bind_eq_some_iff.1 hread
    have hcode := (StatusCode.number?_eq_some_iff value raw.toNat).1 (by rw [hraw]; rfl)
    exact .told (attribute?_eq_some_iff.1 hvalue) (isPadded_trim _) hcode.1

end Tree

namespace Status

/-- Whether a status, in all that is graded in it, is that of a response. -/
structure IsStatusOf (s : Status) (response : Tree Label) (reply : Nat) : Prop where
  received : s.received = true ↔ ∃ holder severity, response.HasStatus holder severity
  graded : ∀ holder severity, response.HasStatus holder severity →
    s.severity = severity ∧ ∃ raw, holder.HoldsNumber raw ∧ s.code.Carries severity raw
  ok : s.isOk = false ↔ s.received = true ∧ s.code.hasFailedBit = true
  text : s.text.utf8ByteSize ≤ 1024
  ident : s.ident.utf8ByteSize ≤ 64
  source : s.source.utf8ByteSize ≤ 64
  missing : s.received = false →
    s.text = "" ∧ s.ident = "" ∧ s.source = "" ∧ s.code = ⟨0⟩ ∧ s.isOk = true
  reply : s.reply = some reply

theorem isStatusOf_extract (response : Tree Label) (reply : Nat) :
    (extract response reply).IsStatusOf response reply := by
  rcases hholder : holder? response with _ | ⟨holder, severity⟩ <;> rw [extract, hholder]
  · have hnone : ∀ holder severity, ¬response.HasStatus holder severity := fun u grade h => by
      rw [Tree.holder?_eq_some_iff.2 h] at hholder
      exact absurd hholder (Option.some_ne_none _)
    exact {
      received := iff_of_false Bool.false_ne_true (not_exists.2 fun u => not_exists.2 (hnone u))
      graded := fun u grade h => absurd h (hnone u grade)
      ok := iff_of_false Bool.false_ne_true.symm fun h => Bool.false_ne_true h.1
      text := Nat.zero_le _
      ident := Nat.zero_le _
      source := Nat.zero_le _
      missing := fun _ => ⟨rfl, rfl, rfl, rfl, rfl⟩
      reply := rfl }
  · have hcode := StatusCode.carries_retag (codeOf holder).raw severity
    exact {
      received := iff_of_true rfl ⟨holder, severity, Tree.holder?_eq_some_iff.1 hholder⟩
      graded := fun u grade h => by
        rw [Tree.holder?_eq_some_iff.2 h] at hholder
        obtain ⟨rfl, rfl⟩ := Prod.mk.inj (Option.some.inj hholder)
        exact ⟨rfl, _, Tree.holdsNumber_codeOf _, hcode⟩
      ok := by
        rw [hcode.failed]
        cases severity <;> simp [isOk, Severity.isFailure]
      text := (isAbridged_abridge _ _).utf8ByteSize_le
      ident := (isAbridged_abridge _ _).utf8ByteSize_le
      source := (isAbridged_abridge _ _).utf8ByteSize_le
      missing := fun h => absurd h.symm Bool.false_ne_true
      reply := rfl }

/-- What is graded in a status is told by its response, in a tree and along the links, and the
severity in its code, bit by bit, is its own. -/
theorem grades_exact :
    (∀ (response : Tree Label) (reply : Nat), (extract response reply).IsStatusOf response reply) ∧
    (∀ (n : ReachedNode) (reply : Nat), ∃ s, n.links.status n.id reply = some s ∧
      s.IsStatusOf n.tree.labels reply) ∧
    ∀ c : StatusCode, c.ToldByBits := by
  refine ⟨isStatusOf_extract, fun n reply => ?_, StatusCode.toldByBits⟩
  have hstatus := n.standing.status reply
  rw [n.node_id] at hstatus
  exact ⟨_, hstatus, isStatusOf_extract n.tree.labels reply⟩

/-- A message that hides an error, behind an instruction of its name, with a number of another
severity and with reserved bits. -/
def screen : List Edit :=
  [.appendChild ⟨0⟩ .pi "message" "", .appendChild ⟨0⟩ .element "error" "",
    .appendAttribute ⟨2⟩ "critical" "no", .appendChild ⟨0⟩ .element "message" "",
    .appendAttribute ⟨3⟩ "warning" " YES", .appendAttribute ⟨3⟩ "code" "0xFFFF0007"]

theorem grades_exact_screen : ∃ (n : ReachedNode) (s : Status) (holder : Tree Label)
    (raw : UInt32), n.document = screen.foldl Document.edit .empty ∧
      n.links.status n.id 7 = some s ∧ n.tree.labels.HasStatus holder .warning ∧
      holder.HoldsNumber raw ∧ s.code.Carries .warning raw ∧ s.code = ⟨0x4FFF0007⟩ ∧
      s.isOk = true := by
  obtain ⟨c, -, hc⟩ := Reached.run screen .empty (by decide)
  let n : ReachedNode := ⟨⟨c, _, hc⟩, ⟨0⟩, _, rfl⟩
  obtain ⟨s, hs, hof⟩ := grades_exact.2.1 n 7
  have hwarning : (holder? (screen.foldl Document.edit .empty).tree.labels).map Prod.snd =
      some .warning := by
    decide +kernel
  obtain ⟨⟨holder, _⟩, hholder, rfl⟩ := Option.map_eq_some_iff.1 hwarning
  have hstatus : n.tree.labels.HasStatus holder .warning := Tree.holder?_eq_some_iff.1 hholder
  obtain ⟨-, raw, hraw, hcode⟩ := hof.graded holder _ hstatus
  have hvalue : (extract (screen.foldl Document.edit .empty).tree.labels 7).code = ⟨0x4FFF0007⟩ ∧
      (extract (screen.foldl Document.edit .empty).tree.labels 7).isOk = true := by
    decide +kernel
  obtain rfl : s = extract n.tree.labels 7 := Option.some.inj (hs.symm.trans (n.standing.status 7))
  exact ⟨n, _, holder, raw, rfl, hs, hstatus, hraw, hcode, hvalue⟩

end Status

end Treegram
