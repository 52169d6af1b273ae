import Treegram.Proofs.RoundTrip

/-!
# Reading from any source

A message is read through `take` alone, so what `take` keeps of a source, reading a message keeps
(`Kept.decodeDocument`), and where taking from one source follows taking from another, reading a
message from the one follows reading it from the other (`Mirror.decodeDocument`). Reading a message
fails for what taking bytes fails for, or because it is malformed (`upholds_decodeDocument`). A
source that only shows a part of another is read alike (`along_decodeDocument`).

So bytes behind those that were read change nothing, and a message that is cut off reads as
truncated (`decodeDocument_cut`).
-/

namespace Treegram

namespace Wire

open ByteSource (take size)

variable {σ τ α β : Type}

theorem bind_of_error {x : Reading σ α} {f : α → Reading σ β} {s s' : σ} {e : Fault}
    (h : x s = (.error e, s')) : (x >>= f) s = (.error e, s') := by
  simp only [bind, h]

/-! ## Assembling as a reading -/

section Assembling

variable [ByteSource σ]

/-- Reads units until the message is complete. -/
def assembled (below : Bool) (a : Assembly) : Reading σ Assembly := fun s =>
  match assemble below a s with
  | ((b, none), s') => (.ok b, s')
  | ((_, some e), s') => (.error e, s')

/-- What is read behind a unit, after what the unit led to. -/
def proceed (below : Bool) : Except Malformed Progress → Reading σ Assembly
  | .error cause => .fail (.malformed cause)
  | .ok (.complete b) => pure b
  | .ok (.more b) => assembled below b

theorem assembled_eq (below : Bool) (a : Assembly) :
    (assembled below a : Reading σ Assembly) =
      readUnit >>= fun u => proceed below (a.step below u) := by
  funext s
  rcases hu : readUnit s with ⟨e | u, s'⟩
  · rw [bind_of_error hu, assembled, assemble]
    split <;> rename_i h <;> split at h <;> rename_i h' <;> rw [hu] at h' <;> simp_all
  · rw [bind_of_ok hu, assembled, assemble_of_readUnit hu]
    rcases a.step below u with cause | b | b <;> rfl

theorem decodeDocument_eq :
    (decodeDocument : Reading σ (Tree Label)) =
      assembled true .start >>= fun b => pure ⟨.document, b.forest⟩ := by
  funext s
  rcases h : assemble true .start s with ⟨⟨b, _ | e⟩, s'⟩
  · have ha : assembled true .start s = (.ok b, s') := by rw [assembled, h]
    rw [bind_of_ok ha, decodeDocument, decode, h]
    rfl
  · have ha : assembled true .start s = (.error e, s') := by rw [assembled, h]
    rw [bind_of_error ha, decodeDocument, decode, h]

/-- No unit is refused for being cut off; only a source is. -/
theorem step_ne_truncated {below : Bool} {a : Assembly} {u : WireUnit} :
    a.step below u ≠ .error .truncated := by
  intro h
  unfold Assembly.step at h
  split at h <;> repeat' split at h
  all_goals simp at h

end Assembling

/-- A message cannot be read from a source without a first byte. -/
theorem decodeDocument_of_error [ByteSource σ] {s s' : σ} {e : Fault}
    (h : take 1 s = (.error e, s')) : decodeDocument s = (.error e, s') := by
  rw [decodeDocument_eq, assembled_eq, readUnit, readControl]
  exact bind_of_error (bind_of_error (bind_of_error (bind_of_error h)))

/-! ## What reading keeps of a source -/

/-- Whether `P` holds of `s₀` and the source behind `x`, which starts from `s`. -/
def Keeps (P : σ → σ → Prop) (s₀ : σ) (x : Reading σ α) (s : σ) : Prop :=
  P s₀ (x s).2

/-- A relation between what a source was and what it is that `take` keeps to. -/
structure Kept [ByteSource σ] (P : σ → σ → Prop) : Prop where
  refl : ∀ s, P s s
  trans : ∀ {s s' s''}, P s s' → P s' s'' → P s s''
  take : ∀ n s, Keeps P s (take n) s

namespace Kept

variable [ByteSource σ] {P : σ → σ → Prop} (hP : Kept P) {s₀ s : σ}

include hP

theorem bind {x : Reading σ α} {f : α → Reading σ β} (hx : Keeps P s₀ x s)
    (hf : ∀ a s', x s = (.ok a, s') → Keeps P s' (f a) s') : Keeps P s₀ (x >>= f) s := by
  unfold Keeps at hx ⊢
  rcases h : x s with ⟨e | a, s'⟩ <;> rw [h] at hx
  · rw [bind_of_error h]
    exact hx
  · rw [bind_of_ok h]
    exact hP.trans hx (hf a s' h)

theorem readText (s : σ) : Keeps P s Wire.readText s := by
  refine hP.bind (hP.take 4 s) fun b s' _ => ?_
  dsimp only
  split
  · exact hP.refl s'
  · refine hP.bind (hP.take _ s') fun b s'' _ => ?_
    split <;> exact hP.refl s''

theorem readUnit (h : Keeps P s₀ (ByteSource.take 1) s) : Keeps P s₀ Wire.readUnit s := by
  have texts (g : String → String → WireUnit) (s : σ) :
      Keeps P s (do return g (← Wire.readText) (← Wire.readText)) s := by
    refine hP.bind (hP.readText s) fun _ s' _ => ?_
    exact hP.bind (hP.readText s') fun _ s'' _ => hP.refl s''
  refine hP.bind (hP.bind h fun b s' _ => ?_) fun control s' _ => ?_
  · dsimp only
    split <;> exact hP.refl s'
  · obtain ⟨control, kind⟩ := control
    cases control
    · exact texts _ s'
    · exact texts _ s'
    · exact texts _ s'
    · exact hP.refl s'

theorem assembled (below : Bool) (a : Assembly) (s : σ) {s₀ : σ}
    (h : Keeps P s₀ (ByteSource.take 1) s) : Keeps P s₀ (Wire.assembled below a) s := by
  rw [assembled_eq]
  refine hP.bind (hP.readUnit h) fun u s' hu => ?_
  have := takes_readUnit _ _ _ hu
  unfold proceed
  split
  · exact hP.refl s'
  · exact hP.refl s'
  · exact assembled below _ s' (hP.take 1 s')
termination_by size s

/-- What `take` keeps of a source, reading a message keeps; from behind the first byte on, if that
is where it starts to. -/
theorem decodeDocument (h : Keeps P s₀ (ByteSource.take 1) s) :
    Keeps P s₀ Wire.decodeDocument s := by
  rw [decodeDocument_eq]
  exact hP.bind (hP.assembled true _ s h) fun _ s' _ => hP.refl s'

end Kept

/-! ## What reading fails for -/

/-- Whether `x` on the source `s` leads to one of which `I` holds, or fails for what `P` tells. -/
structure Upholds (I : σ → Prop) (P : Fault → Prop) (x : Reading σ α) (s : σ) : Prop where
  ok : ∀ {a s'}, x s = (.ok a, s') → I s'
  error : ∀ {e s'}, x s = (.error e, s') → P e

section Upholds

variable {I : σ → Prop} {P : Fault → Prop} {s : σ}

theorem Upholds.pure (h : I s) (a : α) : Upholds I P (pure a) s where
  ok hs := by
    simp only [Pure.pure, Prod.mk.injEq] at hs
    rw [← hs.2]
    exact h
  error hs := by simp [Pure.pure] at hs

theorem Upholds.fail {e : Fault} (he : P e) : Upholds (α := α) I P (.fail e) s where
  ok hs := by simp [Reading.fail] at hs
  error hs := by
    simp only [Reading.fail, Prod.mk.injEq, Except.error.injEq] at hs
    rw [← hs.1]
    exact he

theorem Upholds.bind {x : Reading σ α} {f : α → Reading σ β} (hx : Upholds I P x s)
    (hf : ∀ a s', x s = (.ok a, s') → I s' → Upholds I P (f a) s') : Upholds I P (x >>= f) s := by
  rcases hs : x s with ⟨e | a, s'⟩
  · have he := hx.error hs
    refine ⟨fun h => ?_, fun h => ?_⟩ <;> rw [bind_of_error hs, Prod.mk.injEq] at h
    · simp at h
    · rw [← Except.error.inj h.1]
      exact he
  · obtain ⟨hok, herror⟩ := hf a s' hs (hx.ok hs)
    refine ⟨fun h => ?_, fun h => ?_⟩ <;> rw [bind_of_ok hs] at h
    · exact hok h
    · exact herror h

variable [ByteSource σ] (htake : ∀ n (s : σ), I s → Upholds I P (take n) s)
  (hmalformed : ∀ cause, P (.malformed cause))

include htake hmalformed

theorem upholds_readText (h : I s) : Upholds I P readText s := by
  refine (htake 4 s h).bind fun b s' _ h' => ?_
  dsimp only
  split
  · exact .fail (hmalformed _)
  · refine (htake _ s' h').bind fun b s'' _ h'' => ?_
    split
    · exact .pure h'' _
    · exact .fail (hmalformed _)

theorem upholds_readUnit (h : I s) : Upholds I P readUnit s := by
  have texts (g : String → String → WireUnit) {s : σ} (h : I s) :
      Upholds I P (do return g (← readText) (← readText)) s :=
    (upholds_readText htake hmalformed h).bind fun _ _ _ h' =>
      (upholds_readText htake hmalformed h').bind fun _ _ _ h'' => .pure h'' _
  refine ((htake 1 s h).bind fun b s' _ h' => ?_).bind fun control s' _ h' => ?_
  · dsimp only
    split
    · exact .pure h' _
    · exact .fail (hmalformed _)
  · obtain ⟨control, kind⟩ := control
    cases control
    · exact texts _ h'
    · exact texts _ h'
    · exact texts _ h'
    · exact .pure h' _

theorem upholds_assembled (below : Bool) (a : Assembly) (s : σ) (h : I s) :
    Upholds I P (assembled below a) s := by
  rw [assembled_eq]
  refine (upholds_readUnit htake hmalformed h).bind fun u s' hu h' => ?_
  have := takes_readUnit _ _ _ hu
  unfold proceed
  split
  · exact .fail (hmalformed _)
  · exact .pure h' _
  · exact upholds_assembled below _ s' h'
termination_by size s

/-- What taking bytes leads to and fails for, reading a message does, unless it is malformed. -/
theorem upholds_decodeDocument (h : I s) : Upholds I P decodeDocument s := by
  rw [decodeDocument_eq]
  exact (upholds_assembled htake hmalformed true _ s h).bind fun _ _ _ h' => .pure h' _

end Upholds

/-! ## Reading from a source as from another -/

/-- Whether `x` on the source `s` follows `y` on `t`: it comes to the same results, and to the
same failures but that of a source that ends. There it fails for the reason `lack`, if one is
given. -/
structure Follows (R : σ → τ → Prop) (lack : Option Fault) (x : Reading σ α) (y : Reading τ α)
    (s : σ) (t : τ) : Prop where
  ok : ∀ {a t'}, y t = (.ok a, t') → ∃ s', x s = (.ok a, s') ∧ R s' t'
  error : ∀ {e t'}, y t = (.error e, t') → e ≠ .malformed .truncated → ∃ s', x s = (.error e, s')
  short : ∀ {t' e}, y t = (.error (.malformed .truncated), t') → lack = some e →
    ∃ s', x s = (.error e, s')

/-- Whether taking bytes from a source follows taking them from the one it is related to. -/
def Mirror [ByteSource σ] [ByteSource τ] (R : σ → τ → Prop) (lack : Option Fault) : Prop :=
  ∀ n s t, R s t → Follows R lack (take n) (take n) s t

section Follows

variable {R : σ → τ → Prop} {lack : Option Fault} {s : σ} {t : τ}

theorem Follows.pure (h : R s t) (a : α) : Follows R lack (pure a) (pure a) s t where
  ok hb := by
    simp only [Pure.pure, Prod.mk.injEq, Except.ok.injEq] at hb ⊢
    obtain ⟨rfl, rfl⟩ := hb
    exact ⟨s, ⟨rfl, rfl⟩, h⟩
  error hb := by simp [Pure.pure] at hb
  short hb := by simp [Pure.pure] at hb

theorem Follows.fail {e : Fault} (he : e ≠ .malformed .truncated) :
    Follows (α := α) R lack (.fail e) (.fail e) s t where
  ok hb := by simp [Reading.fail] at hb
  error hb _ := by
    simp only [Reading.fail, Prod.mk.injEq, Except.error.injEq] at hb
    exact ⟨s, by rw [Reading.fail, hb.1]⟩
  short hb := by
    simp only [Reading.fail, Prod.mk.injEq, Except.error.injEq] at hb
    exact absurd hb.1 he

theorem Follows.bind {x : Reading σ α} {y : Reading τ α} {f : α → Reading σ β}
    {g : α → Reading τ β} (hx : Follows R lack x y s t)
    (hf : ∀ a s' t', y t = (.ok a, t') → R s' t' → Follows R lack (f a) (g a) s' t') :
    Follows R lack (x >>= f) (y >>= g) s t := by
  rcases hy : y t with ⟨e | a, t'⟩
  · have hyg := bind_of_error (f := g) hy
    refine ⟨fun h => ?_, fun h he => ?_, fun h hl => ?_⟩ <;> rw [hyg, Prod.mk.injEq] at h
    · simp at h
    · obtain ⟨rfl, rfl⟩ := Except.error.inj h.1, h.2
      obtain ⟨s', hs⟩ := hx.error hy he
      exact ⟨s', bind_of_error hs⟩
    · rw [Except.error.inj h.1] at hy
      obtain ⟨s', hs⟩ := hx.short hy hl
      exact ⟨s', bind_of_error hs⟩
  · obtain ⟨s', hs, hR⟩ := hx.ok hy
    obtain ⟨hok, herror, hshort⟩ := hf a s' t' hy hR
    refine ⟨fun h => ?_, fun h he => ?_, fun h hl => ?_⟩ <;>
      rw [bind_of_ok hy] at h <;> rw [bind_of_ok hs]
    · exact hok h
    · exact herror h he
    · exact hshort h hl

end Follows

namespace Mirror

variable [ByteSource σ] [ByteSource τ] {R : σ → τ → Prop} {lack : Option Fault} {s : σ} {t : τ}
  (hM : Mirror R lack)

include hM

theorem readText (h : R s t) : Follows R lack Wire.readText Wire.readText s t := by
  refine (hM 4 s t h).bind fun b s' t' _ h' => ?_
  dsimp only
  split
  · exact .fail (by simp)
  · refine (hM _ s' t' h').bind fun b s'' t'' _ h'' => ?_
    split
    · exact .pure h'' _
    · exact .fail (by simp)

theorem readUnit (h : R s t) : Follows R lack Wire.readUnit Wire.readUnit s t := by
  have texts (g : String → String → WireUnit) {s : σ} {t : τ} (h : R s t) :
      Follows R lack (do return g (← Wire.readText) (← Wire.readText))
        (do return g (← Wire.readText) (← Wire.readText)) s t := by
    refine (hM.readText h).bind fun _ s' t' _ h' => ?_
    exact (hM.readText h').bind fun _ s'' t'' _ h'' => .pure h'' _
  refine ((hM 1 s t h).bind fun b s' t' _ h' => ?_).bind fun control s' t' _ h' => ?_
  · dsimp only
    split
    · exact .pure h' _
    · exact .fail (by simp)
  · obtain ⟨control, kind⟩ := control
    cases control
    · exact texts _ h'
    · exact texts _ h'
    · exact texts _ h'
    · exact .pure h' _

theorem assembled (below : Bool) (a : Assembly) (s : σ) (t : τ) (h : R s t) :
    Follows R lack (Wire.assembled below a) (Wire.assembled below a) s t := by
  rw [assembled_eq, assembled_eq]
  refine (hM.readUnit h).bind fun u s' t' hu h' => ?_
  have := takes_readUnit _ _ _ hu
  have hstep := @step_ne_truncated below a u
  unfold proceed
  split
  · refine .fail fun hc => hstep ?_
    rw [‹a.step below u = _›, Fault.malformed.inj hc]
  · exact .pure h' _
  · exact assembled below _ s' t' h'
termination_by size t

/-- Where taking bytes follows taking them from another source, reading a message does. -/
theorem decodeDocument (h : R s t) :
    Follows R lack Wire.decodeDocument Wire.decodeDocument s t := by
  rw [decodeDocument_eq, decodeDocument_eq]
  exact (hM.assembled true _ s t h).bind fun _ s' t' _ h' => .pure h' _

end Mirror

/-! ## Reading from a source as from what it shows -/

section Along

variable {f : σ → τ} {s : σ}

/-- Whether reading from what `f` shows of the source comes to the same, and ends in what `f` shows
of its end. -/
def Along (f : σ → τ) (x : Reading σ α) (y : Reading τ α) (s : σ) : Prop :=
  y (f s) = ((x s).1, f (x s).2)

theorem Along.bind {x : Reading σ α} {y : Reading τ α} {g : α → Reading σ β}
    {h : α → Reading τ β} (hx : Along f x y s)
    (hg : ∀ a s', x s = (.ok a, s') → Along f (g a) (h a) s') : Along f (x >>= g) (y >>= h) s := by
  unfold Along at hx ⊢
  rcases hs : x s with ⟨e | a, s'⟩ <;> rw [hs] at hx
  · rw [bind_of_error hs, bind_of_error hx]
  · rw [bind_of_ok hs, bind_of_ok hx]
    exact hg a s' hs

variable [ByteSource σ] [ByteSource τ] (hf : ∀ n s, Along f (take n) (take n) s)

include hf

theorem along_readText (s : σ) : Along f readText readText s := by
  refine (hf 4 s).bind fun b s' _ => ?_
  dsimp only
  split
  · rfl
  · refine (hf _ s').bind fun b s'' _ => ?_
    split <;> rfl

theorem along_readUnit (s : σ) : Along f readUnit readUnit s := by
  have texts (g : String → String → WireUnit) (s : σ) :
      Along f (do return g (← readText) (← readText)) (do return g (← readText) (← readText)) s :=
    (along_readText hf s).bind fun _ s' _ => (along_readText hf s').bind fun _ _ _ => rfl
  refine ((hf 1 s).bind fun b s' _ => ?_).bind fun control s' _ => ?_
  · dsimp only
    split <;> rfl
  · obtain ⟨control, kind⟩ := control
    cases control
    · exact texts _ s'
    · exact texts _ s'
    · exact texts _ s'
    · rfl

theorem along_assembled (below : Bool) (a : Assembly) (s : σ) :
    Along f (assembled below a) (assembled below a) s := by
  rw [assembled_eq, assembled_eq]
  refine (along_readUnit hf s).bind fun u s' hu => ?_
  have := takes_readUnit _ _ _ hu
  unfold proceed
  split
  · rfl
  · rfl
  · exact along_assembled below _ s'
termination_by size s

/-- Where bytes are taken from what is shown of a source as from the source, so are messages. -/
theorem along_decodeDocument (s : σ) : Along f decodeDocument decodeDocument s := by
  rw [decodeDocument_eq, decodeDocument_eq]
  exact (along_assembled hf true _ s).bind fun _ _ _ => rfl

end Along

/-! ## Bytes with more behind them -/

theorem mirror_append (more : Bytes) :
    Mirror (σ := Bytes) (τ := Bytes) (fun s t => s = t ++ more) none := by
  rintro n s t rfl
  rcases hs : Bytes.split? n t with _ | ⟨front, back⟩
  · have ht : take n t = (.error (.malformed .truncated), t) := by simp only [take, hs]
    refine ⟨fun h => ?_, fun h he => ?_, fun _ hl => by simp at hl⟩ <;> rw [ht, Prod.mk.injEq] at h
    · simp at h
    · exact absurd (Except.error.inj h.1).symm he
  · obtain ⟨rfl, hn⟩ := Bytes.split?_eq_some.1 hs
    have ht : take n (front ++ back) = (.ok front, back) := take_append front back hn
    refine ⟨fun h => ?_, fun h _ => ?_, fun h _ => ?_⟩ <;> rw [ht, Prod.mk.injEq] at h
    · obtain ⟨ha, rfl⟩ := h
      rw [← Except.ok.inj ha]
      exact ⟨back ++ more, by rw [List.append_assoc, take_append front _ hn], rfl⟩
    · simp at h
    · simp at h

/-- The start of a message that is not all of it reads as truncated. -/
theorem decodeDocument_cut {b more : Bytes} {d : Tree Label}
    (h : decodeDocument (b ++ more) = (.ok d, [])) (hmore : more ≠ []) :
    (decodeDocument b).1 = .error (.malformed .truncated) := by
  have hf := (mirror_append more).decodeDocument (t := b) rfl
  rcases hb : decodeDocument b with ⟨e | d', rest⟩
  · by_cases he : e = .malformed .truncated
    · rw [he]
    · obtain ⟨s', hs⟩ := hf.error hb he
      rw [h] at hs
      simp at hs
  · obtain ⟨s', hs, rfl⟩ := hf.ok hb
    rw [h, Prod.mk.injEq] at hs
    exact absurd (List.append_eq_nil_iff.1 hs.2.symm).2 hmore

end Wire

end Treegram
