import Treegram.Proofs.AnySource

/-!
# What bytes are read as a unit

A unit is read from bytes at hand exactly if they start with what it looks like in a message
(`readUnit_eq_ok_iff`), so what is read determines the bytes that were taken. Reading to the end of
a message takes the bytes of a list of units that completes it, and no others
(`assemble_eq_ok_iff`). What is refused is refused for being malformed.
-/

namespace Treegram

namespace Bytes

/-- Four bytes are the form of the number they stand for. -/
theorem ofLength_toLength {b : Bytes} (h : b.length = 4) : ofLength b.toLength = b := by
  obtain ⟨w, x, y, z, rfl⟩ := List.length_eq_four.1 h
  have hw := w.toNat_lt
  have hx := x.toNat_lt
  have hy := y.toNat_lt
  have hz := z.toNat_lt
  simp only [toLength, ofLength, List.foldl_cons, List.foldl_nil, List.cons.injEq, and_true,
    ← UInt8.toNat_inj, UInt8.toNat_ofNat']
  omega

theorem toString?_eq_some {b : Bytes} {s : String} : toString? b = some s ↔ b = ofString s := by
  constructor
  · intro h
    unfold toString? String.fromUTF8? at h
    split at h
    · rw [Option.some.injEq] at h
      subst h
      rfl
    · simp at h
  · rintro rfl
    exact toString?_ofString s

end Bytes

theorem Control.byte_ofByte (b : UInt8) : (ofByte b).1.byte (ofByte b).2 = b := by
  have hb := b.toNat_lt
  have hbits : ∀ n < 4, (ofBits n).bits = n := by decide
  rw [← UInt8.toNat_inj, byte, ofByte, UInt8.toNat_ofNat', hbits _ (by omega)]
  omega

theorem NodeKind.tag_of_ofTag? {n : Nat} {k : NodeKind} (h : ofTag? n = some k) : k.tag = n := by
  unfold ofTag? at h
  split at h <;> cases h <;> rfl

/-- A message is completed by its last unit, after which none is left, or by units that follow the
first. -/
theorem Assembly.completes_cons_iff {below : Bool} {a b : Assembly} {u : WireUnit}
    {us : List WireUnit} :
    a.Completes below (u :: us) b ↔
      us = [] ∧ a.step below u = .ok (.complete b) ∨
        ∃ c, a.step below u = .ok (.more c) ∧ c.Completes below us b := by
  constructor
  · rintro ⟨vs, v, c, hsplit, hleads, hv⟩
    rcases hleads with _ | ⟨hstep, hrest⟩
    · simp only [List.nil_append, List.cons.injEq] at hsplit
      obtain ⟨rfl, rfl⟩ := hsplit
      exact .inl ⟨rfl, hv⟩
    · simp only [List.cons_append, List.cons.injEq] at hsplit
      obtain ⟨rfl, rfl⟩ := hsplit
      exact .inr ⟨_, hstep, _, v, c, rfl, hrest, hv⟩
  · rintro (⟨rfl, h⟩ | ⟨c, hstep, vs, v, d, rfl, hleads, hv⟩)
    · exact ⟨[], u, a, rfl, .refl a, h⟩
    · exact ⟨u :: vs, v, d, rfl, .cons hstep hleads, hv⟩

namespace Wire

open ByteSource (take size)

/-! ## Pieces of a unit -/

theorem take_eq_ok_iff {n : Nat} {s s' b : Bytes} :
    take n s = (.ok b, s') ↔ s = b ++ s' ∧ b.length = n := by
  constructor
  · intro h
    simp only [take] at h
    split at h
    · rename_i hs
      simp only [Prod.mk.injEq, Except.ok.injEq] at h
      obtain ⟨rfl, rfl⟩ := h
      exact Bytes.split?_eq_some.1 hs
    · simp at h
  · rintro ⟨rfl, h⟩
    exact take_append b s' h

theorem readControl_eq_ok_iff {s s' : Bytes} {c : Control} {kind : NodeKind} :
    readControl s = (.ok (c, kind), s') ↔ s = c.byte kind.tag :: s' := by
  constructor
  · intro h
    obtain ⟨b, s₁, hb, hc⟩ := Reading.bind_eq_ok.1 h
    obtain ⟨rfl, hlen⟩ := take_eq_ok_iff.1 hb
    obtain ⟨x, rfl⟩ := List.length_eq_one_iff.1 hlen
    simp only [List.headD_cons] at hc
    rcases hk : NodeKind.ofTag? (Control.ofByte x).2 with _ | k
    · simp [hk, Reading.fail] at hc
    · simp only [hk, pure, Prod.mk.injEq, Except.ok.injEq] at hc
      obtain ⟨⟨rfl, rfl⟩, rfl⟩ := hc
      rw [NodeKind.tag_of_ofTag? hk, Control.byte_ofByte, List.singleton_append]
  · rintro rfl
    exact readControl_cons c kind s'

theorem readText_eq_ok_iff {s s' : Bytes} {t : String} :
    readText s = (.ok t, s') ↔ Short t ∧ s = textBytes t ++ s' := by
  constructor
  · intro h
    obtain ⟨b, s₁, hb, hlong⟩ := Reading.bind_eq_ok.1 h
    obtain ⟨rfl, hlen⟩ := take_eq_ok_iff.1 hb
    split at hlong
    · simp [Reading.fail] at hlong
    · rename_i hshort
      obtain ⟨x, s₂, hx, htext⟩ := Reading.bind_eq_ok.1 hlong
      obtain ⟨rfl, hxlen⟩ := take_eq_ok_iff.1 hx
      rcases hs : Bytes.toString? x with _ | t'
      · simp [hs, Reading.fail] at htext
      · simp only [hs, pure, Prod.mk.injEq, Except.ok.injEq] at htext
        obtain ⟨rfl, rfl⟩ := htext
        obtain rfl := Bytes.toString?_eq_some.1 hs
        rw [Bytes.length_ofString] at hxlen
        rw [Short, textBytes, hxlen, Bytes.ofLength_toLength hlen, List.append_assoc]
        exact ⟨Nat.not_lt.1 hshort, rfl⟩
  · rintro ⟨h, rfl⟩
    exact readText_append h s'

/-! ## Units -/

/-- A unit is read exactly from bytes that start with its own. -/
theorem readUnit_eq_ok_iff {s s' : Bytes} {u : WireUnit} :
    readUnit s = (.ok u, s') ↔ u.Fits ∧ s = u.bytes ++ s' := by
  constructor
  · intro h
    have texts (g : String → String → WireUnit) {s₁ : Bytes}
        (h₁ : (do return g (← readText) (← readText) : Reading Bytes WireUnit) s₁ = (.ok u, s')) :
        ∃ name value, u = g name value ∧ (Short name ∧ Short value) ∧
          s₁ = textBytes name ++ textBytes value ++ s' := by
      obtain ⟨name, s₂, hn, h₂⟩ := Reading.bind_eq_ok.1 h₁
      obtain ⟨value, s₃, hv, h₃⟩ := Reading.bind_eq_ok.1 h₂
      obtain ⟨hname, rfl⟩ := readText_eq_ok_iff.1 hn
      obtain ⟨hvalue, rfl⟩ := readText_eq_ok_iff.1 hv
      simp only [pure, Prod.mk.injEq, Except.ok.injEq] at h₃
      obtain ⟨rfl, rfl⟩ := h₃
      exact ⟨name, value, rfl, ⟨hname, hvalue⟩, (List.append_assoc ..).symm⟩
    obtain ⟨⟨c, kind⟩, s₁, hc, hu⟩ := Reading.bind_eq_ok.1 h
    obtain rfl := readControl_eq_ok_iff.1 hc
    cases c
    · obtain ⟨name, value, rfl, hfits, rfl⟩ := texts (.node .child kind) hu
      exact ⟨hfits, rfl⟩
    · obtain ⟨name, value, rfl, hfits, rfl⟩ := texts (.attr kind) hu
      exact ⟨hfits, rfl⟩
    · obtain ⟨name, value, rfl, hfits, rfl⟩ := texts (.node .sibling kind) hu
      exact ⟨hfits, rfl⟩
    · simp only [pure, Prod.mk.injEq, Except.ok.injEq] at hu
      obtain ⟨rfl, rfl⟩ := hu
      exact ⟨trivial, rfl⟩
  · rintro ⟨h, rfl⟩
    exact readUnit_bytes h s'

/-! ## Messages -/

theorem proceed_eq_ok_iff {σ : Type} [ByteSource σ] {below : Bool} {b : Assembly} {s s' : σ} :
    ∀ {p : Except Malformed Progress}, proceed below p s = (.ok b, s') ↔
      p = .ok (.complete b) ∧ s = s' ∨
        ∃ c, p = .ok (.more c) ∧ assembled below c s = (.ok b, s')
  | .error cause => by simp [proceed, Reading.fail]
  | .ok (.complete c) => by simp [proceed, pure]
  | .ok (.more c) => by simp [proceed]

/-- A message is read exactly from bytes that start with those of units that complete it. -/
theorem assembled_eq_ok_iff {below : Bool} {a b : Assembly} {s s' : Bytes} :
    assembled below a s = (.ok b, s') ↔
      ∃ us, (∀ u ∈ us, u.Fits) ∧ a.Completes below us b ∧ s = us.flatMap WireUnit.bytes ++ s' := by
  constructor
  · intro h
    rw [assembled_eq] at h
    obtain ⟨u, s₁, hu, hp⟩ := Reading.bind_eq_ok.1 h
    have hsize := takes_readUnit _ _ _ hu
    obtain ⟨hfits, rfl⟩ := readUnit_eq_ok_iff.1 hu
    rcases proceed_eq_ok_iff.1 hp with ⟨hs, rfl⟩ | ⟨c, hs, hc⟩
    · exact ⟨[u], by simpa, Assembly.completes_cons_iff.2 (.inl ⟨rfl, hs⟩), by simp⟩
    · obtain ⟨us, hus, hcompletes, rfl⟩ := assembled_eq_ok_iff.1 hc
      refine ⟨u :: us, List.forall_mem_cons.2 ⟨hfits, hus⟩,
        Assembly.completes_cons_iff.2 (.inr ⟨c, hs, hcompletes⟩), ?_⟩
      rw [List.flatMap_cons, List.append_assoc]
  · rintro ⟨us, hus, hc, rfl⟩
    rw [assembled, assemble_completes hc hus s']
termination_by size s

/-! ## Refusals -/

/-- Whether reading from `s` only fails because the bytes are malformed. -/
def Blames {α : Type} (x : Reading Bytes α) (s : Bytes) : Prop :=
  ∀ e s', x s = (.error e, s') → ∃ cause, e = .malformed cause

/-- Bytes that hold no message are refused for being malformed. -/
theorem blames_decodeDocument (s : Bytes) : Blames decodeDocument s := by
  have htake (n : Nat) (s : Bytes) (h : True) :
      Upholds (fun _ => True) (fun e => ∃ cause, e = .malformed cause) (take n) s := by
    refine ⟨fun _ => h, fun h => ?_⟩
    simp only [take] at h
    split at h <;> simp only [Prod.mk.injEq, reduceCtorEq, false_and, Except.error.injEq] at h
    exact ⟨.truncated, h.1.symm⟩
  have h := upholds_decodeDocument htake (fun cause => ⟨cause, rfl⟩) (s := s) trivial
  exact fun e s' => h.error

end Wire

end Treegram
