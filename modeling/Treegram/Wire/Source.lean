import Treegram.Wire.Unit

/-!
# Reading units

A source hands out bytes in the order they came. Reading is the same for every source: for bytes
at hand, which are all there is, and for a channel, whose bytes may still be on their way. A read
that succeeds takes exactly the bytes asked for, so every unit read makes the source smaller.
-/

namespace Treegram

/-- A computation that takes bytes from a source `σ` and may fail. What it took before it failed
is gone. -/
def Reading (σ α : Type) : Type :=
  σ → Except Fault α × σ

namespace Reading

variable {σ α β : Type}

instance : Monad (Reading σ) where
  pure a s := (.ok a, s)
  bind x f s :=
    match x s with
    | (.ok a, s') => f a s'
    | (.error e, s') => (.error e, s')

def fail (e : Fault) : Reading σ α :=
  fun s => (.error e, s)

theorem bind_eq_ok {x : Reading σ α} {f : α → Reading σ β} {s s'' : σ} {b : β} :
    (x >>= f) s = (.ok b, s'') ↔ ∃ a s', x s = (.ok a, s') ∧ f a s' = (.ok b, s'') := by
  simp only [bind]
  constructor
  · intro h
    split at h
    · exact ⟨_, _, ‹_›, h⟩
    · simp at h
  · rintro ⟨a, s', hx, hf⟩
    rw [hx]
    exact hf

end Reading

/-- A source of bytes: a way to take so many of them, and a bound on those that can still be
taken. -/
class ByteSource (σ : Type) where
  take : Nat → Reading σ Bytes
  size : σ → Nat
  length_of_take : ∀ {n : Nat} {s s' : σ} {b : Bytes}, take n s = (.ok b, s') → b.length = n
  size_of_take : ∀ {n : Nat} {s s' : σ} {b : Bytes},
    take n s = (.ok b, s') → size s' + n ≤ size s

/-- Bytes at hand. A read past their end takes nothing. -/
instance : ByteSource Bytes where
  take n s :=
    match s.split? n with
    | some (front, back) => (.ok front, back)
    | none => (.error (.malformed .truncated), s)
  size s := s.length
  length_of_take h := by
    split at h <;> simp_all [Bytes.split?_eq_some]
  size_of_take h := by
    split at h
    · rename_i hs
      rw [Bytes.split?_eq_some] at hs
      simp only [Prod.mk.injEq, Except.ok.injEq] at h
      obtain ⟨rfl, rfl⟩ := h
      obtain ⟨rfl, rfl⟩ := hs
      simp [Nat.add_comm]
    · simp at h

namespace Wire

variable {σ α β : Type} [ByteSource σ]

open ByteSource (take size)

/-- A control byte whose tag is that of a node kind. -/
def readControl : Reading σ (Control × NodeKind) := do
  let b ← take 1
  let (control, tag) := Control.ofByte (b.headD 0)
  match NodeKind.ofTag? tag with
  | some kind => return (control, kind)
  | none => .fail (.malformed (.unknownTag tag))

/-- A text behind its length. -/
def readText : Reading σ String := do
  let length := (← take 4).toLength
  if length > maxText then .fail (.malformed (.longText length))
  else
    match (← take length).toString? with
    | some s => return s
    | none => .fail (.malformed .notText)

def readUnit : Reading σ WireUnit := do
  let (control, kind) ← readControl
  match control with
  | .endOfChildren => return .close kind
  | .newChild => return .node .child kind (← readText) (← readText)
  | .newSibling => return .node .sibling kind (← readText) (← readText)
  | .newAttribute => return .attr kind (← readText) (← readText)

/-! ## Reading makes progress -/

/-- Whether `x` takes at least `k` bytes whenever it succeeds. -/
def Takes (k : Nat) (x : Reading σ α) : Prop :=
  ∀ (s s' : σ) (a : α), x s = (.ok a, s') → size s' + k ≤ size s

theorem takes_pure (a : α) : Takes 0 (pure a : Reading σ α) := by
  intro s s' a' h
  simp only [pure, Prod.mk.injEq] at h
  exact Nat.le_of_eq (by rw [h.2]; rfl)

theorem takes_fail (e : Fault) (k : Nat) : Takes k (.fail e : Reading σ α) := by
  intro s s' a h
  simp [Reading.fail] at h

theorem takes_take (n : Nat) : Takes n (take n : Reading σ Bytes) := by
  intro s s' b h
  exact ByteSource.size_of_take h

theorem Takes.bind {x : Reading σ α} {f : α → Reading σ β} {j k : Nat} (hx : Takes j x)
    (hf : ∀ a, Takes k (f a)) : Takes (j + k) (x >>= f) := by
  intro s s'' b h
  obtain ⟨a, s', h₁, h₂⟩ := Reading.bind_eq_ok.1 h
  have := hx _ _ _ h₁
  have := hf a _ _ _ h₂
  omega

theorem Takes.mono {x : Reading σ α} {j k : Nat} (hx : Takes k x) (h : j ≤ k) : Takes j x := by
  intro s s' a hs
  have := hx _ _ _ hs
  omega

theorem takes_readText : Takes 4 (readText : Reading σ String) := by
  refine Takes.bind (k := 0) (takes_take 4) fun b => ?_
  dsimp only
  split
  · exact takes_fail _ _
  · refine (Takes.bind (k := 0) (takes_take _) fun b => ?_).mono (Nat.zero_le _)
    split
    · exact takes_pure _
    · exact takes_fail _ _

theorem takes_readControl : Takes 1 (readControl : Reading σ (Control × NodeKind)) := by
  refine Takes.bind (k := 0) (takes_take 1) fun b => ?_
  dsimp only
  split
  · exact takes_pure _
  · exact takes_fail _ _

theorem takes_readUnit : Takes 1 (readUnit : Reading σ WireUnit) := by
  have texts (g : String → String → WireUnit) :
      Takes 0 (do return g (← readText) (← readText) : Reading σ WireUnit) :=
    (takes_readText.bind fun _ => takes_readText.bind fun _ => takes_pure _).mono (Nat.zero_le _)
  refine Takes.bind (k := 0) takes_readControl fun control => ?_
  obtain ⟨control, kind⟩ := control
  cases control
  · exact texts _
  · exact texts _
  · exact texts _
  · exact takes_pure _

end Wire

end Treegram
