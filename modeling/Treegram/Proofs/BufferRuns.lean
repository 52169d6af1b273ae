import Treegram.Buffer.Checked
import Treegram.Proofs.Buffers

/-!
# Runs of a buffer

A buffer that is in order and no larger than a word can tell passes all checks but one: its
operations come to what they come to without them (`Sized.passes`), and no more bytes count as
received than there is room for.

In front of the write cursor are the bytes that were received since the last reset, and in front of
the read cursor those of them that were consumed (`Carries`). Every call keeps it so, however it is
answered. So the bytes between the cursors are those that were received and not consumed, in order
(`queue_exact`).
-/

namespace Treegram

namespace Buffer

/-- Whether a buffer is in order and no larger than a word can tell. -/
structure Sized (b : Buffer) : Prop extends b.Sound where
  capacity_lt : b.capacity < UInt64.size

/-- Whether a buffer passes all checks, so that its operations come to what they come to without. -/
structure Passes (b : Buffer) : Prop where
  length : Handling.length b = (.ok b.length, b)
  data : Handling.data b = (.ok b.data, b)
  consumeInto : ∀ target, Handling.consumeInto target b =
    (.ok ((b.consumeInto target).1, (b.consumeInto target).2.1), (b.consumeInto target).2.2)
  spare : Handling.spare b = (.ok b.ahead, b)
  store : ∀ bytes, Handling.store bytes b = (.ok (b.store bytes).1, (b.store bytes).2)
  commit : ∀ n, Handling.commit n b =
    match b.commit n with
    | .ok b' => (.ok (), b')
    | .error cause => (.error (.misused cause), b)
  fill : ∀ bytes, Handling.fill bytes b = (.ok (b.fill bytes).1, (b.fill bytes).2)
  reset : Handling.reset b = (.ok (), b.reset)

end Buffer

/-! ## Checks -/

namespace Handling

variable {α β : Type} {b b' : Buffer} {m n : Nat} {bytes : Bytes}

theorem get_bind (f : Buffer → Handling β) (b : Buffer) : (get >>= f) b = f b b := rfl

theorem bind_of_ok {x : Handling α} {a : α} (f : α → Handling β) (h : x b = (.ok a, b')) :
    (x >>= f) b = f a b' := by
  show ExceptT.bindCont f (x b).1 (x b).2 = f a b'
  rw [h]
  rfl

theorem bind_of_error {x : Handling α} {stop : Stop} (f : α → Handling β)
    (h : x b = (.error stop, b')) : (x >>= f) b = (.error stop, b') := by
  show ExceptT.bindCont f (x b).1 (x b).2 = (.error stop, b')
  rw [h]
  rfl

theorem minus_of_le (h : n ≤ m) (b : Buffer) : minus m n b = (.ok (m - n), b) := by
  rw [minus, if_pos h]
  rfl

theorem plus_of_lt (h : m + n < UInt64.size) (b : Buffer) : plus m n b = (.ok (m + n), b) := by
  rw [plus, if_pos h]
  rfl

theorem slice_of_le (h : m ≤ n) (h' : n ≤ bytes.length) (b : Buffer) :
    slice bytes m n b = (.ok (bytes.extract m n), b) := by
  rw [slice, if_pos ⟨h, h'⟩]
  rfl

theorem copyOver_of_eq {target : Bytes} (h : target.length = bytes.length) (b : Buffer) :
    copyOver target bytes b = (.ok bytes, b) := by
  rw [copyOver, if_pos h]
  rfl

/-! ## Operations -/

theorem length_run (h : b.Sound) : length b = (.ok b.length, b) :=
  minus_of_le h.read_le b

theorem data_run (h : b.Sound) : data b = (.ok b.data, b) := by
  rw [b.data_eq]
  exact slice_of_le h.read_le h.write_le b

theorem spare_run (h : b.Sound) : spare b = (.ok b.ahead, b) := by
  rw [Buffer.ahead, ← b.extract_capacity]
  exact slice_of_le h.write_le (Nat.le_refl _) b

theorem consumeInto_run (h : b.Sized) (target : Bytes) : consumeInto target b =
    (.ok ((b.consumeInto target).1, (b.consumeInto target).2.1), (b.consumeInto target).2.2) := by
  have hw : b.writePos ≤ b.storage.toList.length := h.write_le
  have hword : b.storage.toList.length < UInt64.size := h.capacity_lt
  -- no more is taken than there is, so the sums stay within the storage and are words
  have hspan : b.readPos + b.length = b.writePos := Nat.add_sub_cancel' h.read_le
  have htaken : b.storage.toList.extract b.readPos (b.readPos + min b.length target.length) =
      b.data.take target.length := by
    rw [← (b.consume_take target.length).1]
    exact Array.toList_extract.symm
  have hfront : (target.extract 0 (min b.length target.length)).length =
      (b.data.take target.length).length := by
    rw [Bytes.extract_zero, List.length_take, List.length_take, h.length_data]
    omega
  rw [h.consumeInto_eq, consumeInto, bind_of_ok _ (length_run h.toSound), get_bind,
    bind_of_ok _ (slice_of_le (Nat.zero_le _) (Nat.min_le_right _ _) b),
    bind_of_ok _ (plus_of_lt (by omega) b), bind_of_ok _ (slice_of_le (by omega) (by omega) b),
    htaken, bind_of_ok _ (copyOver_of_eq hfront b), bind_of_ok _ (plus_of_lt (by omega) b)]
  rfl

theorem store_run (h : b.Sound) (bytes : Bytes) :
    store bytes b = (.ok (b.store bytes).1, (b.store bytes).2) := by
  have hn : min b.ahead.length bytes.length = (bytes.take b.spare).length := by
    rw [List.length_take, b.length_ahead]
  have hfront : bytes.extract 0 (bytes.take b.spare).length = bytes.take b.spare := by
    rw [Bytes.extract_zero, List.length_take, ← List.take_eq_take_min]
  have hroom : (b.ahead.extract 0 (bytes.take b.spare).length).length =
      (bytes.take b.spare).length := by
    rw [Bytes.extract_zero, ← hn]
    exact List.length_take_of_le (Nat.min_le_left _ _)
  have hstorage : b.storage.extract 0 b.writePos ++
      (bytes.take b.spare ++ b.ahead.drop (bytes.take b.spare).length).toArray =
        (b.store bytes).2.storage := by
    apply Array.toList_inj.1
    rw [b.toList_store, Array.toList_append, Array.toList_extract, Bytes.extract_zero]
  rw [store, bind_of_ok _ (spare_run h),
    bind_of_ok _ (slice_of_le (Nat.zero_le _) (Nat.min_le_left _ _) b),
    bind_of_ok _ (slice_of_le (Nat.zero_le _) (Nat.min_le_right _ _) b), hn, hfront,
    bind_of_ok _ (copyOver_of_eq hroom b)]
  show (_, { b with storage := _ }) = (_, _)
  rw [hstorage]
  rfl

theorem commit_run (h : b.Sized) (n : Nat) : commit n b =
    if n ≤ b.spare then (.ok (), { b with writePos := b.writePos + n })
    else (.error (.misused .pastEnd), b) := by
  have hw : b.writePos ≤ b.storage.size := h.write_le
  have hword : b.storage.size < UInt64.size := h.capacity_lt
  have hspare : b.spare = b.storage.size - b.writePos := rfl
  rw [commit, get_bind, bind_of_ok _ (minus_of_le hw b), ← hspare]
  by_cases hn : n ≤ b.spare
  · rw [if_pos hn, if_pos hn, bind_of_ok _ (plus_of_lt (by omega) b)]
    rfl
  · rw [if_neg hn, if_neg hn]
    rfl

end Handling

namespace Buffer

variable {b : Buffer} {n : Nat}

theorem Sized.store (h : b.Sized) (bytes : Bytes) : (b.store bytes).2.Sized :=
  ⟨h.toSound.store bytes, by rw [h.capacity_store]; exact h.capacity_lt⟩

theorem Sized.passes (h : b.Sized) : b.Passes where
  length := Handling.length_run h.toSound
  data := Handling.data_run h.toSound
  consumeInto := Handling.consumeInto_run h
  spare := Handling.spare_run h.toSound
  store := Handling.store_run h.toSound
  commit n := by
    rw [Handling.commit_run h, Buffer.commit]
    split <;> rfl
  fill bytes := by
    have hroom : (b.store bytes).1 ≤ (b.store bytes).2.spare := by
      rw [(h.alike_store bytes).spare]
      exact List.length_take_le _ _
    have hcommit := Handling.commit_run (h.store bytes) (b.store bytes).1
    rw [if_pos hroom] at hcommit
    rw [Handling.fill, Handling.bind_of_ok _ (Handling.store_run h.toSound bytes),
      Handling.bind_of_ok _ hcommit]
    rfl
  reset := rfl

end Buffer

/-! ## Calls -/

namespace Handling

variable {b : Buffer}

theorem perform_store (h : b.Sound) (bytes : Bytes) : perform (.store bytes) b =
    (.ok (.stored (b.store bytes).1), (b.store bytes).2) :=
  bind_of_ok _ (store_run h bytes)

theorem perform_commit (h : b.Sized) (n : Nat) : perform (.commit n) b =
    if n ≤ b.spare then
      (.ok (.received (b.ahead.take n)), { b with writePos := b.writePos + n })
    else (.error (.misused .pastEnd), b) := by
  have hcommit := commit_run h n
  rw [perform, bind_of_ok _ (spare_run h.toSound)]
  by_cases hn : n ≤ b.spare
  · rw [if_pos hn] at hcommit ⊢
    exact bind_of_ok _ hcommit
  · rw [if_neg hn] at hcommit ⊢
    exact bind_of_error _ hcommit

theorem perform_consume (h : b.Sized) (target : Bytes) : perform (.consume target) b =
    (.ok (.consumed (b.consumeInto target).1 (b.consumeInto target).2.1),
      (b.consumeInto target).2.2) :=
  bind_of_ok _ (consumeInto_run h target)

theorem perform_reset (b : Buffer) : perform .reset b = (.ok .rewound, b.reset) := rfl

/-- The answer to a call that consumes is what there was to consume. -/
theorem run_consume (h : b.Sized) (target : Bytes) : run [.consume target] b =
    ([.ok (.consumed (b.consumeInto target).1 (b.consumeInto target).2.1)],
      (b.consumeInto target).2.2) := by
  rw [run, perform_consume h]
  rfl

/-- Bytes that are written count as received as soon as so many are committed. -/
theorem run_store_commit (h : b.Sized) (bytes : Bytes) :
    (run [.store bytes, .commit bytes.length] b).1 =
      if bytes.length ≤ b.spare then [.ok (.stored bytes.length), .ok (.received bytes)]
      else [.ok (.stored b.spare), .error (.misused .pastEnd)] := by
  have hcount : (b.store bytes).1 = min b.spare bytes.length := List.length_take
  have hspare := (h.alike_store bytes).spare
  simp only [run, perform_store h.toSound, perform_commit (h.store bytes), hspare, hcount]
  by_cases hn : bytes.length ≤ b.spare
  · rw [if_pos hn, if_pos hn, h.ahead_store, Nat.min_eq_right hn, List.take_of_length_le hn,
      List.take_left]
  · rw [if_neg hn, if_neg hn, Nat.min_eq_left (by omega)]

end Handling

/-! ## Runs -/

/-- The bytes that were received and those that were consumed since the last reset. -/
structure Traffic where
  received : Bytes := []
  consumed : Bytes := []

namespace Traffic

/-- After a call that is answered so. -/
def after (t : Traffic) : Except Stop BufferAnswer → Traffic
  | .ok (.received bytes) => { t with received := t.received ++ bytes }
  | .ok (.consumed n target) => { t with consumed := t.consumed ++ target.take n }
  | .ok .rewound => {}
  | .ok (.stored _) => t
  | .error _ => t

def of (answers : List (Except Stop BufferAnswer)) : Traffic :=
  answers.foldl after {}

end Traffic

namespace Buffer

variable {b : Buffer} {t : Traffic} {n : Nat}

/-- Whether the bytes in front of the cursors are those of the traffic. -/
structure Carries (b : Buffer) (t : Traffic) : Prop extends b.Sized where
  received : b.storage.toList.take b.writePos = t.received
  consumed : b.storage.toList.take b.readPos = t.consumed

theorem carries_withCapacity (capacity : UInt64) : (withCapacity capacity.toNat).Carries {} where
  read_le := Nat.le_refl 0
  write_le := Nat.zero_le _
  capacity_lt := by
    rw [capacity_withCapacity]
    exact Nat.max_lt.2 ⟨capacity.toNat_lt, by decide⟩
  received := List.take_zero
  consumed := List.take_zero

namespace Carries

theorem consumed_append (h : b.Carries t) : t.consumed ++ b.data = t.received := by
  rw [← h.consumed, ← h.received, b.data_eq, List.extract_eq_take_drop, ← List.take_add,
    Nat.add_sub_cancel' h.read_le]

theorem store (h : b.Carries t) (bytes : Bytes) : (b.store bytes).2.Carries t where
  toSized := h.toSized.store bytes
  received := (h.take_store bytes (Nat.le_refl _)).trans h.received
  consumed := (h.take_store bytes h.read_le).trans h.consumed

theorem commit (h : b.Carries t) (hn : n ≤ b.spare) : { b with writePos := b.writePos + n }.Carries
    { t with received := t.received ++ b.ahead.take n } where
  read_le := Nat.le_trans h.read_le (Nat.le_add_right _ _)
  write_le := by
    have hw := h.write_le
    rw [spare] at hn
    show b.writePos + n ≤ b.capacity
    omega
  capacity_lt := h.capacity_lt
  received := by rw [List.take_add, h.received, ahead]
  consumed := h.consumed

theorem consume (h : b.Carries t) (n : Nat) :
    (b.consume n).2.Carries { t with consumed := t.consumed ++ (b.consume n).1 } where
  toSound := h.toSound.consume n
  capacity_lt := h.capacity_lt
  received := h.received
  consumed := by
    simp only [Buffer.consume, Array.toList_extract, List.extract_eq_take_drop]
    rw [List.take_add, h.consumed, Nat.add_sub_cancel_left]

-- the storage stays, but none of it is in front of a cursor
theorem reset (h : b.Carries t) : b.reset.Carries {} where
  read_le := Nat.le_refl 0
  write_le := Nat.zero_le _
  capacity_lt := h.capacity_lt
  received := List.take_zero
  consumed := List.take_zero

/-- What a call is answered tells how the traffic goes on, and the capacity stays. -/
theorem perform (h : b.Carries t) (call : BufferCall) :
    (Handling.perform call b).2.Carries (t.after (Handling.perform call b).1) ∧
      (Handling.perform call b).2.capacity = b.capacity := by
  cases call with
  | store bytes =>
    rw [Handling.perform_store h.toSound]
    exact ⟨h.store bytes, h.capacity_store bytes⟩
  | commit n =>
    rw [Handling.perform_commit h.toSized]
    by_cases hn : n ≤ b.spare
    · rw [if_pos hn]
      exact ⟨h.commit hn, rfl⟩
    · rw [if_neg hn]
      exact ⟨h, rfl⟩
  | consume target =>
    have hfront : (b.consumeInto target).2.1.take (b.consumeInto target).1 =
        (b.consume target.length).1 := List.take_left
    rw [Handling.perform_consume h.toSized, Traffic.after, hfront]
    exact ⟨h.consume target.length, rfl⟩
  | reset =>
    rw [Handling.perform_reset]
    exact ⟨h.reset, rfl⟩

theorem run : ∀ (calls : List BufferCall) {b : Buffer} {t : Traffic}, b.Carries t →
    (Handling.run calls b).2.Carries ((Handling.run calls b).1.foldl Traffic.after t) ∧
      (Handling.run calls b).2.capacity = b.capacity
  | [], _, _, h => ⟨h, rfl⟩
  | call :: calls, _, _, h => by
    obtain ⟨hcall, hcapacity⟩ := h.perform call
    obtain ⟨hcalls, hcapacity'⟩ := hcall.run calls
    exact ⟨hcalls, hcapacity'.trans hcapacity⟩

end Carries

/-- Whatever its capacity, and whatever is called: behind the calls the cursors of a buffer are in
order and within its storage, which is as large as it was, and the bytes that were consumed since
the last reset, and then those between the cursors, are the ones that were received since then. As
many bytes are consumed as there are and the target has room for, and the rest of the target stays.
A commit stops, and leaves all as it is, exactly if it is of more bytes than there is room for;
nothing else stops. -/
theorem queue_exact (capacity : UInt64) (calls : List BufferCall) :
    let b := (Handling.run calls (withCapacity capacity.toNat)).2
    let t := Traffic.of (Handling.run calls (withCapacity capacity.toNat)).1
    b.readPos ≤ b.writePos ∧ b.writePos ≤ b.capacity ∧ b.capacity = max capacity.toNat 1 ∧
    t.consumed ++ b.data = t.received ∧ b.data.length = b.writePos - b.readPos ∧
    b.Passes ∧
    (∀ target, b.consumeInto target =
      (min b.length target.length,
        b.data.take target.length ++ target.drop (min b.length target.length),
        { b with readPos := b.readPos + min b.length target.length })) ∧
    (∀ target, Handling.run [.consume target] b =
      ([.ok (.consumed (b.consumeInto target).1 (b.consumeInto target).2.1)],
        (b.consumeInto target).2.2)) ∧
    (∀ n, Handling.commit n b =
      if n ≤ b.capacity - b.writePos then (.ok (), { b with writePos := b.writePos + n })
      else (.error (.misused .pastEnd), b)) ∧
    ∀ bytes, (Handling.run [.store bytes, .commit bytes.length] b).1 =
      if bytes.length ≤ b.capacity - b.writePos then
        [.ok (.stored bytes.length), .ok (.received bytes)]
      else [.ok (.stored (b.capacity - b.writePos)), .error (.misused .pastEnd)] := by
  intro b t
  obtain ⟨hcarries, hcapacity⟩ := (carries_withCapacity capacity).run calls
  have h : b.Carries t := hcarries
  have hsize : b.capacity = max capacity.toNat 1 := hcapacity.trans (capacity_withCapacity _)
  exact ⟨h.read_le, h.write_le, hsize, h.consumed_append, h.length_data, h.toSized.passes,
    h.consumeInto_eq, Handling.run_consume h.toSized, Handling.commit_run h.toSized,
    Handling.run_store_commit h.toSized⟩

/-- Behind a reset, bytes that were not written anew are those that are left in the storage. -/
example : (Handling.run [.store [1, 2, 3], .commit 2, .consume [0, 0, 9], .commit 2, .reset,
    .commit 3] (withCapacity 3)).1 =
      [.ok (.stored 3), .ok (.received [1, 2]), .ok (.consumed 2 [1, 2, 9]),
        .error (.misused .pastEnd), .ok .rewound, .ok (.received [1, 2, 3])] := by
  rfl

end Buffer

end Treegram
