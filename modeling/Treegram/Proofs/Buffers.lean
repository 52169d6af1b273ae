import Treegram.Buffer

/-!
# What a buffer holds

The cursors of a buffer stay in order and within its storage (`Sound`), so what it holds is as long
as it says. What is consumed comes off the front of that, and what comes in stands behind it, as far
as there is room.

The bytes that a buffer has dropped stay in its storage. They are not read (`Alike`).
-/

namespace Treegram

theorem Bytes.extract_zero (bytes : Bytes) (n : Nat) : bytes.extract 0 n = bytes.take n := rfl

namespace Buffer

/-- Whether the cursors are in order and within the storage. -/
structure Sound (b : Buffer) : Prop where
  read_le : b.readPos ≤ b.writePos
  write_le : b.writePos ≤ b.capacity

variable {b b' : Buffer}

theorem capacity_withCapacity (n : Nat) : (withCapacity n).capacity = max n 1 :=
  Array.size_replicate

theorem capacity_new : new.capacity = defaultCapacity :=
  capacity_withCapacity _

theorem spare_new : new.spare = defaultCapacity := by
  rw [spare, capacity_new]
  rfl

theorem sound_new : new.Sound :=
  ⟨Nat.le_refl 0, Nat.zero_le _⟩

theorem data_eq (b : Buffer) : b.data = b.storage.toList.extract b.readPos b.writePos :=
  Array.toList_extract

theorem data_eq_drop (b : Buffer) : b.data = (b.storage.toList.take b.writePos).drop b.readPos := by
  rw [b.data_eq, List.extract_eq_take_drop, List.drop_take]

theorem Sound.length_front (h : b.Sound) :
    (b.storage.toList.take b.writePos).length = b.writePos :=
  List.length_take_of_le h.write_le

theorem Sound.length_data (h : b.Sound) : b.data.length = b.length := by
  rw [data_eq_drop, List.length_drop, h.length_front]
  rfl

/-! ## Consuming -/

theorem consume_take (b : Buffer) (n : Nat) :
    (b.consume n).1 = b.data.take n ∧ (b.consume n).2.data = b.data.drop n := by
  have happ := b.consume_append n
  have hle := b.length_consume_le n
  by_cases hn : (b.consume n).1.length = n
  · rw [← happ, List.take_left' hn, List.drop_left' hn]
    exact ⟨rfl, rfl⟩
  · have hnil := data_consume_of_short hn
    rw [hnil, List.append_nil] at happ
    rw [hnil, ← happ, List.take_of_length_le hle, List.drop_of_length_le hle]
    exact ⟨rfl, rfl⟩

theorem consume_of_lt {n : Nat} (h : b.data.length < n) : (b.consume n).1 = b.data := by
  rw [(b.consume_take n).1, List.take_of_length_le (Nat.le_of_lt h)]

theorem Sound.length_consume (h : b.Sound) (n : Nat) :
    (b.consume n).1.length = min b.length n := by
  rw [(b.consume_take n).1, List.length_take, h.length_data, Nat.min_comm]

/-- As many bytes are consumed as there are and the target has room for, and what is behind these in
the target stays as it is. -/
theorem Sound.consumeInto_eq (h : b.Sound) (target : Bytes) : b.consumeInto target =
    (min b.length target.length,
      b.data.take target.length ++ target.drop (min b.length target.length),
      { b with readPos := b.readPos + min b.length target.length }) := by
  show ((b.consume target.length).1.length,
    (b.consume target.length).1 ++ target.drop (b.consume target.length).1.length, _) = _
  rw [h.length_consume, (b.consume_take target.length).1]

theorem Sound.consume (h : b.Sound) (n : Nat) : (b.consume n).2.Sound := by
  have := h.read_le
  refine ⟨?_, h.write_le⟩
  simp only [Buffer.consume, length]
  omega

/-! ## Storing and filling -/

theorem Sound.capacity_store (h : b.Sound) (bytes : Bytes) :
    (b.store bytes).2.capacity = b.capacity := by
  have hw := h.write_le
  have hle : (bytes.take b.spare).length ≤ b.capacity - b.writePos := List.length_take_le _ _
  simp only [store, capacity, Array.size_append, Array.size_extract, List.size_toArray] at *
  omega

theorem Sound.capacity_fill (h : b.Sound) (bytes : Bytes) :
    (b.fill bytes).2.capacity = b.capacity :=
  h.capacity_store bytes

theorem Sound.fill (h : b.Sound) (bytes : Bytes) : (b.fill bytes).2.Sound := by
  have hr := h.read_le
  have hw := h.write_le
  have hle : (bytes.take b.spare).length ≤ b.capacity - b.writePos := List.length_take_le _ _
  refine ⟨Nat.le_trans hr (Nat.le_add_right _ _), ?_⟩
  rw [h.capacity_fill]
  show b.writePos + (bytes.take b.spare).length ≤ b.capacity
  omega

/-- The bytes behind the write cursor. -/
def ahead (b : Buffer) : Bytes :=
  b.storage.toList.drop b.writePos

theorem length_ahead (b : Buffer) : b.ahead.length = b.spare :=
  List.length_drop

theorem extract_capacity (b : Buffer) (n : Nat) :
    b.storage.toList.extract n b.capacity = b.storage.toList.drop n := by
  rw [List.extract_eq_take_drop]
  exact List.take_of_length_le (Nat.le_of_eq List.length_drop)

theorem toList_store (b : Buffer) (bytes : Bytes) : (b.store bytes).2.storage.toList =
    b.storage.toList.take b.writePos ++
      (bytes.take b.spare ++ b.ahead.drop (bytes.take b.spare).length) := by
  simp only [store, Array.toList_append, Array.toList_extract, List.append_assoc,
    Bytes.extract_zero, b.extract_capacity, ahead, List.drop_drop]

/-- What is in front of the write cursor stays as it is. -/
theorem Sound.take_store (h : b.Sound) (bytes : Bytes) {n : Nat} (hn : n ≤ b.writePos) :
    (b.store bytes).2.storage.toList.take n = b.storage.toList.take n := by
  rw [b.toList_store, List.take_append_of_le_length (by rw [h.length_front]; exact hn),
    List.take_take, Nat.min_eq_left hn]

theorem Sound.ahead_store (h : b.Sound) (bytes : Bytes) : (b.store bytes).2.ahead =
    bytes.take b.spare ++ b.ahead.drop (bytes.take b.spare).length := by
  show (b.store bytes).2.storage.toList.drop b.writePos = _
  rw [b.toList_store, List.drop_left' h.length_front]

theorem Sound.store (h : b.Sound) (bytes : Bytes) : (b.store bytes).2.Sound :=
  ⟨h.read_le, by rw [h.capacity_store]; exact h.write_le⟩

/-- Bytes that are stored are not handed out. -/
theorem Sound.data_store (h : b.Sound) (bytes : Bytes) : (b.store bytes).2.data = b.data := by
  have hfront := h.take_store bytes (Nat.le_refl _)
  rw [data_eq_drop, data_eq_drop, ← hfront]
  rfl

/-- Bytes that count as received are handed out behind what there was. -/
theorem Sound.data_receive (h : b.Sound) (n : Nat) :
    { b with writePos := b.writePos + n }.data = b.data ++ b.ahead.take n := by
  rw [data_eq_drop, data_eq_drop, List.take_add,
    List.drop_append_of_le_length (by rw [h.length_front]; exact h.read_le)]
  rfl

/-- What comes in is handed out behind what there was. -/
theorem Sound.data_fill (h : b.Sound) (bytes : Bytes) :
    (b.fill bytes).2.data = b.data ++ bytes.take b.spare := by
  have hreceive := (h.store bytes).data_receive (bytes.take b.spare).length
  rw [h.data_store, h.ahead_store, List.take_left] at hreceive
  exact hreceive

/-! ## Dead storage -/

/-- Whether the buffers differ at most in stored bytes that were not received or are consumed. -/
structure Alike (b b' : Buffer) : Prop where
  capacity : b'.capacity = b.capacity
  readPos : b'.readPos = b.readPos
  writePos : b'.writePos = b.writePos
  data : b'.data = b.data

theorem Alike.trans {b'' : Buffer} (h : b.Alike b') (h' : b'.Alike b'') : b.Alike b'' where
  capacity := h'.capacity.trans h.capacity
  readPos := h'.readPos.trans h.readPos
  writePos := h'.writePos.trans h.writePos
  data := h'.data.trans h.data

theorem Alike.sound (h : b.Alike b') (hb : b.Sound) : b'.Sound :=
  ⟨by rw [h.readPos, h.writePos]; exact hb.read_le,
    by rw [h.capacity, h.writePos]; exact hb.write_le⟩

theorem Alike.spare (h : b.Alike b') : b'.spare = b.spare := by
  rw [Buffer.spare, Buffer.spare, h.capacity, h.writePos]

theorem alike_reset (h : b'.capacity = b.capacity) : b.reset.Alike b'.reset :=
  ⟨h, rfl, rfl, by simp [data, reset]⟩

theorem Sound.alike_store (h : b.Sound) (bytes : Bytes) : b.Alike (b.store bytes).2 :=
  ⟨h.capacity_store bytes, rfl, rfl, h.data_store bytes⟩

theorem Alike.consume (h : b.Alike b') (n : Nat) :
    (b'.consume n).1 = (b.consume n).1 ∧ (b.consume n).2.Alike (b'.consume n).2 := by
  obtain ⟨htake, hdrop⟩ := b.consume_take n
  obtain ⟨htake', hdrop'⟩ := b'.consume_take n
  rw [h.data] at htake' hdrop'
  have hread : (b'.consume n).2.readPos = (b.consume n).2.readPos := by
    simp only [Buffer.consume, length, h.readPos, h.writePos]
  exact ⟨htake'.trans htake.symm, h.capacity, hread, h.writePos, hdrop'.trans hdrop.symm⟩

theorem Alike.fill (h : b.Alike b') (hb : b.Sound) (bytes : Bytes) :
    (b.fill bytes).2.Alike (b'.fill bytes).2 := by
  have hb' := h.sound hb
  refine ⟨?_, h.readPos, ?_, ?_⟩
  · rw [hb'.capacity_fill, hb.capacity_fill, h.capacity]
  · simp only [Buffer.fill, store, h.spare, h.writePos]
  · rw [hb'.data_fill, hb.data_fill, h.data, h.spare]

end Buffer

end Treegram
