import Treegram.Cache

/-!
# What a cache holds

No operation puts anything into a cache but the insertion of a reply, and that puts in this reply
only (`mem_insert`); what is found was there (`mem_of_lookup`).
-/

namespace Treegram

namespace Cache

variable {c : Cache} {e : CacheEntry}

theorem mem_of_find {key : Bytes} (h : c.find? key = some e) : e ∈ c.entries :=
  List.mem_of_find?_eq_some h

theorem mem_of_drop {e' : CacheEntry} (h : e ∈ (c.drop e').entries) : e ∈ c.entries :=
  List.mem_of_mem_eraseP h

theorem mem_of_shed {limit : Nat} : ∀ (es : List CacheEntry) (total : Nat),
    e ∈ (shed limit es total).1 → e ∈ es
  | [], _, h => h
  | e' :: es, total, h => by
    simp only [shed] at h
    split at h
    · exact List.mem_cons_of_mem e' (mem_of_shed es _ h)
    · exact h

theorem mem_of_shrink {limit : Nat} (h : e ∈ (c.shrink limit).entries) : e ∈ c.entries := by
  have hr : e ∈ (shed limit c.entries.reverse c.total).1 := List.mem_reverse.1 h
  exact List.mem_reverse.1 (mem_of_shed _ _ hr)

theorem mem_of_dropExpired {now : Instant} (h : e ∈ (c.dropExpired now).entries) :
    e ∈ c.entries := by
  simp only [dropExpired, List.partition_eq_filter_filter] at h
  exact (List.mem_filter.1 h).1

theorem mem_of_expireIfDue {now : Instant} (h : e ∈ (c.expireIfDue now).entries) :
    e ∈ c.entries := by
  unfold expireIfDue at h
  split at h
  · split at h
    · exact mem_of_dropExpired h
    · exact h
  · exact h

theorem mem_of_clear {all : Bool} {now : Instant} (h : e ∈ (c.clear all now).entries) :
    e ∈ c.entries := by
  unfold clear at h
  split at h
  · simp at h
  · exact mem_of_dropExpired h

theorem mem_of_setBudget {budget : Nat} (h : e ∈ (c.setBudget budget).entries) :
    e ∈ c.entries :=
  mem_of_shrink (c := { c with budget }) h

theorem mem_of_mem_lookup {key : Bytes} {now : Instant} (h : e ∈ (c.lookup key now).2.entries) :
    e ∈ c.entries := by
  unfold lookup at h
  dsimp only at h
  split at h
  · rename_i e' he'
    rcases List.mem_cons.1 h with rfl | h
    · exact mem_of_expireIfDue (mem_of_find he')
    · exact mem_of_expireIfDue (List.mem_of_mem_eraseP h)
  · exact mem_of_expireIfDue h

/-- The reply that is found was held. -/
theorem mem_of_lookup {key : Bytes} {now : Instant} {r : Reply}
    (h : (c.lookup key now).1 = some r) : ∃ e ∈ c.entries, e.reply = r := by
  unfold lookup at h
  dsimp only at h
  split at h
  · rename_i e he
    exact ⟨e, mem_of_expireIfDue (mem_of_find he), Option.some.inj h⟩
  · simp at h

/-- Behind an insertion a cache holds what it held and the reply. -/
theorem mem_insert {key : Bytes} {r : Reply} {now : Instant}
    (h : e ∈ (c.insert key r now).2.entries) : e.reply = r ∨ e ∈ c.entries := by
  unfold insert at h
  dsimp only at h
  split at h
  · exact Or.inr h
  · split at h
    · exact Or.inr h
    · rcases List.mem_cons.1 h with rfl | h
      · exact Or.inl rfl
      · have h := mem_of_shrink h
        split at h
        · exact Or.inr (mem_of_drop h)
        · exact Or.inr h

end Cache

end Treegram
