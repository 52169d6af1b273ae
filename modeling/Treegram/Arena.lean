import Mathlib.Data.List.Perm.Basic
import Treegram.Document.Slots

/-!
# Arenas

Values that are kept in slots and referred to by the numbers of these. The slots are handed out as
the identities of nodes are: one that was vacated is used again before a new one is opened. A slot
that holds nothing is dead, and what it is asked for does not exist.
-/

namespace Treegram

structure Arena (α : Type) where
  slots : Slots
  cells : Array (Option α)
  size_cells : cells.size = slots.opened
  /-- The vacant slots are those that were opened and hold nothing. -/
  mem_vacant : ∀ k, k ∈ slots.vacant ↔ cells[k]? = some none
  nodup_vacant : slots.vacant.Nodup

namespace Arena

variable {α : Type}

def empty : Arena α where
  slots := ⟨[], 0⟩
  cells := #[]
  size_cells := rfl
  mem_vacant k := by simp
  nodup_vacant := List.nodup_nil

/-- What is in slot `k`. -/
def get? (a : Arena α) (k : Nat) : Option α :=
  a.cells[k]?.join

/-- The slot that the next value gets. -/
def next (a : Arena α) : Nat :=
  a.slots.next

/-- The values that are kept, in the order of their slots. -/
def values (a : Arena α) : List α :=
  (List.range a.cells.size).filterMap a.get?

/-- The number of values that are kept. -/
def count (a : Arena α) : Nat :=
  a.values.length

/-- With `x` in the next slot. -/
def insert (a : Arena α) (x : α) : Arena α where
  slots := a.slots.advance
  cells := if a.slots.vacant = [] then a.cells.push (some x)
    else a.cells.setIfInBounds a.next (some x)
  size_cells := by
    have := a.size_cells
    rcases h : a.slots.vacant with _ | ⟨v, vacant⟩ <;> simp [Slots.advance, h, this]
  mem_vacant k := by
    have hk := a.mem_vacant k
    have hd := a.nodup_vacant
    rcases h : a.slots.vacant with _ | ⟨v, vacant⟩ <;>
      simp only [h, List.not_mem_nil, List.mem_cons, List.nodup_cons, false_iff] at hk hd
    · simp only [Slots.advance, h, if_true, Array.getElem?_push, List.not_mem_nil, false_iff]
      split
      · simp
      · exact hk
    · simp only [Slots.advance, next, Slots.next, h, reduceCtorEq, if_false, List.headD_cons,
        Array.getElem?_setIfInBounds]
      by_cases hv : v = k
      · subst hv
        rw [if_pos rfl]
        split <;> simp [hd.1]
      · rw [if_neg hv, ← hk, or_iff_right (Ne.symm hv)]
  nodup_vacant := by
    have hd := a.nodup_vacant
    rcases h : a.slots.vacant with _ | ⟨v, vacant⟩ <;> rw [h] at hd
    · simp [Slots.advance, h]
    · simp only [Slots.advance, h]
      exact (List.nodup_cons.1 hd).2

/-- With the value in slot `k` changed by `f`. -/
def modify? (a : Arena α) (k : Nat) (f : α → α) : Option (Arena α) :=
  match h : a.get? k with
  | none => none
  | some x => some
    { a with
      cells := a.cells.setIfInBounds k (some (f x))
      size_cells := by rw [Array.size_setIfInBounds, a.size_cells]
      mem_vacant := fun j => by
        rw [a.mem_vacant, Array.getElem?_setIfInBounds]
        split
        · rename_i hj
          subst hj
          have hk : a.cells[k]? ≠ some none := fun hn => by simp [get?, hn] at h
          split <;> simp [hk]
        · rfl }

/-- The value in slot `k`, and the arena without it. -/
def remove? (a : Arena α) (k : Nat) : Option (α × Arena α) :=
  match h : a.get? k with
  | none => none
  | some x => some (x,
    { slots := a.slots.vacate [k]
      cells := a.cells.setIfInBounds k none
      size_cells := by rw [Array.size_setIfInBounds, a.size_cells]; rfl
      mem_vacant := fun j => by
        have hk : k < a.cells.size := by
          by_contra hk
          simp [get?, Array.getElem?_eq_none (Nat.le_of_not_lt hk)] at h
        simp only [Slots.vacate, List.singleton_append, List.mem_cons, a.mem_vacant,
          Array.getElem?_setIfInBounds]
        by_cases hj : k = j
        · subst hj
          simp [hk]
        · rw [if_neg hj, or_iff_right (Ne.symm hj)]
      nodup_vacant := by
        refine List.nodup_cons.2 ⟨fun hm => ?_, a.nodup_vacant⟩
        have hm := (a.mem_vacant k).1 hm
        simp [get?, hm] at h })

/-! ## What the operations do -/

theorem get?_eq_none_iff (a : Arena α) (k : Nat) :
    a.get? k = none ↔ k ∈ a.slots.vacant ∨ a.slots.opened ≤ k := by
  rw [a.mem_vacant, ← a.size_cells, ← Array.getElem?_eq_none_iff, get?]
  rcases a.cells[k]? with _ | _ | x <;> simp

theorem lt_size_of_get? {a : Arena α} {k : Nat} {x : α} (h : a.get? k = some x) :
    k < a.cells.size := by
  by_contra hk
  simp [get?, Array.getElem?_eq_none (Nat.le_of_not_lt hk)] at h

/-- The next slot is free. -/
@[simp] theorem get?_next (a : Arena α) : a.get? a.next = none := by
  rw [get?_eq_none_iff, next, Slots.next]
  rcases a.slots.vacant with _ | ⟨k, vacant⟩ <;> simp

@[simp] theorem get?_empty (k : Nat) : (empty : Arena α).get? k = none := by
  simp [get?, empty]

theorem get?_insert (a : Arena α) (x : α) (k : Nat) :
    (a.insert x).get? k = if k = a.next then some x else a.get? k := by
  have hs := a.size_cells
  rcases h : a.slots.vacant with _ | ⟨v, vacant⟩
  · simp only [get?, insert, next, Slots.next, h, if_true, Array.getElem?_push, List.headD_nil, ← hs]
    split <;> rfl
  · have hv : v < a.cells.size := by
      have hm := (a.mem_vacant v).1 (by rw [h]; exact List.mem_cons_self)
      exact (Array.getElem?_eq_some_iff.1 hm).1
    simp only [get?, insert, next, Slots.next, h, reduceCtorEq, if_false, List.headD_cons,
      Array.getElem?_setIfInBounds, hv, if_true, eq_comm (a := k)]
    split <;> rfl

theorem modify?_of_get? {a : Arena α} {k : Nat} {x : α} (h : a.get? k = some x) (f : α → α) :
    ∃ a', a.modify? k f = some a' ∧ a'.slots = a.slots ∧
      ∀ j, a'.get? j = if j = k then some (f x) else a.get? j := by
  unfold modify?
  split
  · rename_i hn
    simp [h] at hn
  · rename_i y hy
    obtain rfl : y = x := Option.some.inj (hy.symm.trans h)
    refine ⟨_, rfl, rfl, fun j => ?_⟩
    simp only [get?, Array.getElem?_setIfInBounds, eq_comm (a := j)]
    split
    · rename_i hj
      subst hj
      rw [if_pos (lt_size_of_get? h)]
      rfl
    · rfl

theorem remove?_of_get? {a : Arena α} {k : Nat} {x : α} (h : a.get? k = some x) :
    ∃ a', a.remove? k = some (x, a') ∧ a'.slots = a.slots.vacate [k] ∧
      ∀ j, a'.get? j = if j = k then none else a.get? j := by
  unfold remove?
  split
  · rename_i hn
    simp [h] at hn
  · rename_i y hy
    obtain rfl : y = x := Option.some.inj (hy.symm.trans h)
    refine ⟨_, rfl, rfl, fun j => ?_⟩
    simp only [get?, Array.getElem?_setIfInBounds, eq_comm (a := j)]
    split
    · split <;> rfl
    · rfl

/-- What is kept is what the slots of a list hold, if these are all that are not dead. -/
theorem values_perm {a : Arena α} {ks : List Nat} (hd : ks.Nodup)
    (hk : ∀ k, k ∈ ks ↔ (a.get? k).isSome) : a.values.Perm (ks.filterMap a.get?) := by
  have hlt : ∀ k, (a.get? k).isSome → k < a.cells.size := fun k h => by
    obtain ⟨x, hx⟩ := Option.isSome_iff_exists.1 h
    exact lt_size_of_get? hx
  have hperm : ((List.range a.cells.size).filter fun k => (a.get? k).isSome).Perm ks := by
    refine (List.perm_ext_iff_of_nodup (List.nodup_range.filter _) hd).2 fun k => ?_
    rw [List.mem_filter, List.mem_range, hk]
    exact ⟨And.right, fun h => ⟨hlt k h, h⟩⟩
  have hvalues : a.values =
      ((List.range a.cells.size).filter fun k => (a.get? k).isSome).filterMap a.get? := by
    rw [List.filterMap_filter, values]
    congr 1
    funext k
    cases a.get? k <;> rfl
  rw [hvalues]
  exact hperm.filterMap a.get?

theorem count_eq {a : Arena α} {ks : List Nat} (hd : ks.Nodup)
    (hk : ∀ k, k ∈ ks ↔ (a.get? k).isSome) : a.count = ks.length := by
  rw [count, (values_perm hd hk).length_eq]
  exact List.filterMap_length_eq_length.2 fun k hm => (hk k).1 hm

end Arena

/-- Whether the walk along the links from `start` visits these, one after the other, and then
ends. -/
def Visits {κ : Type} (link : κ → Option (Option κ)) (start : Option κ) : List κ → Prop
  | [] => start = none
  | k :: ks => start = some k ∧ ∃ next, link k = some next ∧ Visits link next ks

/-- The links and the start leave no choice. -/
theorem Visits.unique {κ : Type} {link : κ → Option (Option κ)} : ∀ {start : Option κ}
    {ks ks' : List κ}, Visits link start ks → Visits link start ks' → ks = ks'
  | _, [], [], _, _ => rfl
  | _, [], _ :: _, h, h' => by
    obtain ⟨h', -⟩ := h'
    rw [h] at h'
    simp at h'
  | _, _ :: _, [], h, h' => by
    obtain ⟨h, -⟩ := h
    rw [h'] at h
    simp at h
  | _, k :: ks, k' :: ks', ⟨hk, next, hnext, h⟩, ⟨hk', next', hnext', h'⟩ => by
    obtain rfl := Option.some.inj (hk.symm.trans hk')
    obtain rfl := Option.some.inj (hnext.symm.trans hnext')
    rw [Visits.unique h h']

end Treegram
