import Mathlib.Algebra.GroupWithZero.Nat
import Mathlib.Data.List.Nodup
import Treegram.Proofs.CacheContents

/-!
# What is always true of a cache

No two entries are kept under the same key, an entry counts for what it and its key occupy, and
the total is the sum of that; the horizon is there if there are entries, and none of them expires
before it (`Tallied`). The total never exceeds the budget (`Sound`). Every operation keeps this.

So a look-up finds the entry that is kept for the key, unless that is stale
(`Tallied.lookup_eq_some_iff`).
-/

namespace Treegram

theorem CacheEntry.footprint_pos (key : Bytes) (r : Reply) : 0 < footprint key r :=
  Nat.lt_of_lt_of_le (by decide) (Nat.le_add_left overhead _)

namespace Cache

/-- Whether the books of the cache are right. -/
structure Tallied (c : Cache) : Prop where
  keys : (c.entries.map CacheEntry.key).Nodup
  total : c.total = occupied c.entries
  size : ∀ e ∈ c.entries, e.size = CacheEntry.footprint e.key e.reply
  horizon : c.horizon = none ↔ c.entries = []
  le_expires : ∀ h, c.horizon = some h → ∀ e ∈ c.entries, h ≤ e.expires

/-- Whether the books of the cache are right and the budget is met. -/
structure Sound (c : Cache) : Prop extends Tallied c where
  le_budget : c.total ≤ c.budget

theorem sound_empty (lifetime : Duration) (budget : Nat) : (empty lifetime budget).Sound where
  keys := List.nodup_nil
  total := rfl
  size e h := absurd h List.not_mem_nil
  horizon := iff_of_true rfl rfl
  le_expires h hh := by simp [empty] at hh
  le_budget := Nat.zero_le _

/-! ## What entries occupy -/

section Occupied

variable (es es' : List CacheEntry)

theorem occupied_append : occupied (es ++ es') = occupied es + occupied es' := by
  induction es with
  | nil => exact (Nat.zero_add _).symm
  | cons e es ih =>
    show e.size + occupied (es ++ es') = e.size + occupied es + occupied es'
    rw [ih, Nat.add_assoc]

theorem occupied_eq_sum : occupied es = (es.map CacheEntry.size).sum := by
  induction es with
  | nil => rfl
  | cons e es ih => exact congrArg (e.size + ·) ih

theorem occupied_perm {es es' : List CacheEntry} (h : es.Perm es') : occupied es = occupied es' := by
  induction h with
  | nil => rfl
  | cons e _ ih => exact congrArg (e.size + ·) ih
  | swap e e' es =>
    show e'.size + (e.size + occupied es) = e.size + (e'.size + occupied es)
    omega
  | trans _ _ ih ih' => exact ih.trans ih'

theorem occupied_filter (p : CacheEntry → Bool) :
    occupied (es.filter p) + occupied (es.filter (not ∘ p)) = occupied es := by
  rw [← occupied_append]
  exact occupied_perm (by exact List.filter_append_perm p es)

end Occupied

/-! ## Finding entries -/

section Keys

variable {es : List CacheEntry} {e : CacheEntry}

theorem eq_of_key (h : (es.map CacheEntry.key).Nodup) {e' : CacheEntry} (he : e ∈ es)
    (he' : e' ∈ es) (hk : e.key = e'.key) : e = e' :=
  List.inj_on_of_nodup_map h he he' hk

/-- The entry kept under its key is the only one that goes with the key. -/
theorem eraseP_key {front back : List CacheEntry}
    (h : ((front ++ e :: back).map CacheEntry.key).Nodup) :
    (front ++ e :: back).eraseP (fun e' => e'.key == e.key) = front ++ back := by
  have hne : ∀ e' ∈ front, ¬(e'.key == e.key) = true := by
    intro e' he' hk
    have := eq_of_key h (List.mem_append_left _ he') (List.mem_append_right _ List.mem_cons_self)
      (beq_iff_eq.1 hk)
    subst this
    rw [List.map_append, List.map_cons] at h
    exact (List.disjoint_of_nodup_append h) (List.mem_map_of_mem he') List.mem_cons_self
  rw [List.eraseP_append_right _ hne, List.eraseP_cons_of_pos (by exact beq_self_eq_true _)]

end Keys

section

variable {c : Cache}

theorem Tallied.find?_eq_some_iff (h : c.Tallied) {key : Bytes} {e : CacheEntry} :
    c.find? key = some e ↔ e ∈ c.entries ∧ e.key = key := by
  constructor
  · intro hf
    exact ⟨mem_of_find hf, beq_iff_eq.1 (List.find?_some hf :)⟩
  · rintro ⟨he, rfl⟩
    rcases hf : c.find? e.key with _ | e'
    · exact absurd (beq_self_eq_true e.key) (List.find?_eq_none.1 hf e he)
    · rw [eq_of_key h.keys (mem_of_find hf) he (beq_iff_eq.1 (List.find?_some hf :))]

/-- The books stay right if entries go and the total and the horizon follow. -/
theorem Tallied.sublist {c' : Cache} (h : c.Tallied) (hs : c'.entries.Sublist c.entries)
    (ht : c'.total = occupied c'.entries)
    (hh : c'.horizon = if c'.entries.isEmpty then none else c.horizon) : c'.Tallied where
  keys := h.keys.sublist (hs.map _)
  total := ht
  size e he := h.size e (hs.subset he)
  horizon := by
    rcases hc : c'.entries with _ | ⟨e, es⟩ <;> rw [hc] at hh hs
    · exact iff_of_true hh rfl
    · have hne : c.entries ≠ [] := fun hn => by simp [hn] at hs
      simpa [hh, h.horizon] using hne
  le_expires t htime e he := by
    rw [hh] at htime
    split at htime
    · simp at htime
    · exact h.le_expires t htime e (hs.subset he)

/-! ## Dropping entries -/

theorem Tallied.drop (h : c.Tallied) {e : CacheEntry} (he : e ∈ c.entries) :
    (c.drop e).Tallied := by
  obtain ⟨front, back, hes⟩ := List.append_of_mem he
  have herase : (c.drop e).entries = front ++ back := by
    have hk := h.keys
    rw [hes] at hk
    simp only [Cache.drop, hes, eraseP_key hk]
  refine h.sublist (List.eraseP_sublist) ?_ rfl
  rw [herase]
  show c.total - e.size = _
  have hc : occupied (e :: back) = e.size + occupied back := rfl
  rw [h.total, hes, occupied_append, occupied_append, hc]
  omega

/-- What is left of entries that are shed meets the limit. -/
theorem shed_spec (limit : Nat) : ∀ es : List CacheEntry,
    (shed limit es (occupied es)).1 <:+ es ∧
      (shed limit es (occupied es)).2 = occupied (shed limit es (occupied es)).1 ∧
      (shed limit es (occupied es)).2 ≤ limit
  | [] => ⟨List.suffix_refl [], rfl, Nat.zero_le _⟩
  | e :: es => by
    obtain ⟨hs, ht, hl⟩ := shed_spec limit es
    have hc : occupied (e :: es) - e.size = occupied es := Nat.add_sub_cancel_left ..
    simp only [shed, hc]
    split
    · exact ⟨hs.trans (List.suffix_cons e es), ht, hl⟩
    · exact ⟨List.suffix_refl _, rfl, by dsimp only; omega⟩

theorem Tallied.shrink (h : c.Tallied) (limit : Nat) :
    (c.shrink limit).Tallied ∧ (c.shrink limit).total ≤ limit := by
  obtain ⟨hs, ht, hl⟩ := shed_spec limit c.entries.reverse
  have hr : occupied c.entries.reverse = c.total :=
    (occupied_perm c.entries.reverse_perm).trans h.total.symm
  rw [hr] at hs ht hl
  refine ⟨h.sublist ?_ ?_ ?_, hl⟩
  · have := hs.sublist.reverse
    rwa [List.reverse_reverse] at this
  · exact ht.trans (occupied_perm (List.reverse_perm _).symm)
  · simp only [Cache.shrink, List.isEmpty_reverse]

/-- Nothing is shed if the limit is met. -/
theorem Tallied.shrink_of_le {limit : Nat} (h : c.Tallied) (hle : c.total ≤ limit) :
    c.shrink limit = c := by
  have hshed : shed limit c.entries.reverse c.total = (c.entries.reverse, c.total) := by
    rcases c.entries.reverse with _ | ⟨e, es⟩
    · rfl
    · rw [shed, if_neg (Nat.not_lt.2 hle)]
  have hhorizon : (if c.entries.reverse.isEmpty then none else c.horizon) = c.horizon := by
    split
    · rename_i hn
      rw [List.isEmpty_reverse, List.isEmpty_iff] at hn
      exact (h.horizon.2 hn).symm
    · rfl
  unfold Cache.shrink
  simp only [hshed, hhorizon, List.reverse_reverse]

/-- If the limit is exceeded, the last entry goes first. -/
theorem Tallied.shrink_of_lt {limit : Nat} {e : CacheEntry} {es : List CacheEntry} (h : c.Tallied)
    (hlt : limit < c.total) (he : c.entries = es ++ [e]) :
    c.shrink limit = (c.drop e).shrink limit := by
  have hkeys := h.keys
  rw [he] at hkeys
  have hdrop : (c.drop e).entries = es := by
    simp only [Cache.drop, he, eraseP_key hkeys, List.append_nil]
  have hshed : shed limit c.entries.reverse c.total =
      shed limit (c.drop e).entries.reverse (c.drop e).total := by
    rw [he, hdrop, List.reverse_append, List.reverse_singleton, List.singleton_append, shed,
      if_pos hlt]
    rfl
  unfold Cache.shrink
  rw [hshed]
  rcases hk : shed limit (c.drop e).entries.reverse (c.drop e).total with ⟨kept, total⟩
  have hhorizon : (if kept.isEmpty then none else c.horizon) =
      if kept.isEmpty then none else (c.drop e).horizon := by
    rcases kept with _ | ⟨e', kept⟩
    · rfl
    · have hmem : e' ∈ (c.drop e).entries.reverse :=
        mem_of_shed _ _ (by rw [hk]; exact List.mem_cons_self)
      have hne : (c.drop e).entries ≠ [] := fun hn => by simp [hn] at hmem
      show c.horizon = if (c.drop e).entries.isEmpty then none else c.horizon
      rw [if_neg (by simpa using hne)]
  simp only [hhorizon]
  rfl

theorem entries_dropExpired (c : Cache) (now : Instant) :
    (c.dropExpired now).entries = c.entries.filter fun e => now < e.expires := by
  simp only [Cache.dropExpired, List.partition_eq_filter_filter]
  refine List.filter_congr fun e _ => ?_
  rw [Function.comp_apply, ← decide_not]
  exact decide_eq_decide.2 Nat.not_le

theorem Tallied.dropExpired (h : c.Tallied) (now : Instant) : (c.dropExpired now).Tallied where
  keys := by
    rw [entries_dropExpired]
    exact h.keys.sublist (List.filter_sublist.map _)
  total := by
    have := occupied_filter c.entries fun e => e.expires ≤ now
    simp only [Cache.dropExpired, List.partition_eq_filter_filter, h.total]
    omega
  size e he := h.size e (mem_of_dropExpired he)
  horizon := by
    simp only [Cache.dropExpired, firstExpiry, List.min?_eq_none_iff, List.map_eq_nil_iff]
  le_expires t ht e he := by
    exact (List.min?_eq_some_iff.1 ht).2 _ (List.mem_map_of_mem he)

theorem Tallied.expireIfDue (h : c.Tallied) (now : Instant) : (c.expireIfDue now).Tallied := by
  unfold Cache.expireIfDue
  split
  · split
    · exact h.dropExpired now
    · exact h
  · exact h

/-- Before the horizon there is nothing to drop. -/
theorem Tallied.filter_of_lt (h : c.Tallied) {now t : Instant} (ht : c.horizon = some t)
    (hlt : now < t) : (c.entries.filter fun e => now < e.expires) = c.entries := by
  refine List.filter_eq_self.2 fun e he => ?_
  rw [decide_eq_true_iff]
  exact Nat.lt_of_lt_of_le hlt (h.le_expires t ht e he)

/-- Behind a look at the horizon there are the entries that are not stale, and no others. -/
theorem Tallied.entries_expireIfDue (h : c.Tallied) (now : Instant) :
    (c.expireIfDue now).entries = c.entries.filter fun e => now < e.expires := by
  unfold Cache.expireIfDue
  rcases hh : c.horizon with _ | t
  · simp only [h.horizon.1 hh, List.filter_nil]
  · dsimp only
    split
    · exact c.entries_dropExpired now
    · rename_i hnow
      exact (h.filter_of_lt hh (Nat.lt_of_not_le hnow)).symm

theorem Tallied.mem_expireIfDue (h : c.Tallied) (now : Instant) (e : CacheEntry) :
    e ∈ (c.expireIfDue now).entries ↔ e ∈ c.entries ∧ now < e.expires := by
  rw [h.entries_expireIfDue, List.mem_filter, decide_eq_true_iff]

theorem lifetime_expireIfDue (c : Cache) (now : Instant) :
    (c.expireIfDue now).lifetime = c.lifetime := by
  unfold Cache.expireIfDue
  split
  · split <;> rfl
  · rfl

/-! ## Operations -/

/-- A look-up finds the entry that is kept for the key, unless it is stale. -/
theorem Tallied.lookup_eq_some_iff (h : c.Tallied) {key : Bytes} {now : Instant} {r : Reply} :
    (c.lookup key now).1 = some r ↔
      ∃ e ∈ c.entries, e.key = key ∧ now < e.expires ∧ e.reply = r := by
  have hfind : ∀ e, (c.expireIfDue now).find? key = some e ↔
      (e ∈ c.entries ∧ now < e.expires) ∧ e.key = key := fun e => by
    rw [(h.expireIfDue now).find?_eq_some_iff, h.mem_expireIfDue]
  unfold Cache.lookup
  dsimp only
  split
  · rename_i e he
    obtain ⟨⟨hmem, hnow⟩, hkey⟩ := (hfind e).1 he
    rw [Option.some.injEq]
    constructor
    · rintro rfl
      exact ⟨e, hmem, hkey, hnow, rfl⟩
    · rintro ⟨e', hmem', hkey', hnow', rfl⟩
      rw [eq_of_key h.keys hmem hmem' (hkey.trans hkey'.symm)]
  · rename_i hn
    refine ⟨fun hr => by simp at hr, ?_⟩
    rintro ⟨e, hmem, hkey, hnow, -⟩
    rw [(hfind e).2 ⟨⟨hmem, hnow⟩, hkey⟩] at hn
    simp at hn

/-- What can be found is what is kept and not stale. -/
theorem Tallied.contains_iff (h : c.Tallied) (key : Bytes) (now : Instant) :
    c.contains key now = true ↔ ∃ e ∈ c.entries, e.key = key ∧ now < e.expires := by
  unfold Cache.contains
  split
  · rename_i e he
    obtain ⟨hmem, hkey⟩ := h.find?_eq_some_iff.1 he
    rw [decide_eq_true_iff]
    refine ⟨fun hnow => ⟨e, hmem, hkey, hnow⟩, ?_⟩
    rintro ⟨e', hmem', hkey', hnow⟩
    rwa [eq_of_key h.keys hmem hmem' (hkey.trans hkey'.symm)]
  · rename_i hn
    refine ⟨fun hf => by simp at hf, ?_⟩
    rintro ⟨e, hmem, hkey, -⟩
    rw [h.find?_eq_some_iff.2 ⟨hmem, hkey⟩] at hn
    simp at hn

theorem Tallied.isSome_lookup (h : c.Tallied) (key : Bytes) (now : Instant) :
    (c.lookup key now).1.isSome = c.contains key now := by
  rw [Bool.eq_iff_iff, h.contains_iff, Option.isSome_iff_exists]
  simp only [h.lookup_eq_some_iff]
  constructor
  · rintro ⟨r, e, hmem, hkey, hnow, -⟩
    exact ⟨e, hmem, hkey, hnow⟩
  · rintro ⟨e, hmem, hkey, hnow⟩
    exact ⟨e.reply, e, hmem, hkey, hnow, rfl⟩

/-- In what order entries were used does not matter to the books. -/
theorem Tallied.perm {entries : List CacheEntry} (h : c.Tallied) (hp : entries.Perm c.entries) :
    { c with entries }.Tallied where
  keys := (hp.map CacheEntry.key).nodup_iff.2 h.keys
  total := h.total.trans (occupied_perm hp).symm
  size e he := h.size e (hp.subset he)
  horizon := by
    rw [h.horizon, ← List.length_eq_zero_iff, ← List.length_eq_zero_iff, hp.length_eq]
  le_expires t ht e he := h.le_expires t ht e (hp.subset he)

theorem Tallied.lookup (h : c.Tallied) (key : Bytes) (now : Instant) :
    (c.lookup key now).2.Tallied := by
  have hdue := h.expireIfDue now
  unfold Cache.lookup
  dsimp only
  split
  · rename_i e he
    obtain ⟨hmem, rfl⟩ := hdue.find?_eq_some_iff.1 he
    obtain ⟨front, back, hes⟩ := List.append_of_mem hmem
    have hk := hdue.keys
    rw [hes] at hk
    refine hdue.perm ?_
    rw [hes, eraseP_key hk]
    exact List.perm_middle.symm
  · exact hdue

theorem budget_expireIfDue (c : Cache) (now : Instant) :
    (c.expireIfDue now).budget = c.budget ∧ (c.expireIfDue now).total ≤ c.total := by
  unfold Cache.expireIfDue
  split
  · split
    · exact ⟨rfl, Nat.sub_le _ _⟩
    · exact ⟨rfl, Nat.le_refl _⟩
  · exact ⟨rfl, Nat.le_refl _⟩

theorem Sound.lookup (h : c.Sound) (key : Bytes) (now : Instant) :
    (c.lookup key now).2.Sound := by
  refine ⟨h.toTallied.lookup key now, ?_⟩
  obtain ⟨hb, ht⟩ := c.budget_expireIfDue now
  have hle := Nat.le_trans ht h.le_budget
  rw [← hb] at hle
  unfold Cache.lookup
  dsimp only
  split <;> exact hle

theorem Sound.clear (h : c.Sound) (all : Bool) (now : Instant) : (c.clear all now).Sound := by
  unfold Cache.clear
  split
  · exact { sound_empty c.lifetime c.budget with }
  · exact ⟨h.toTallied.dropExpired now, Nat.le_trans (Nat.sub_le _ _) h.le_budget⟩

theorem Sound.setLifetime (h : c.Sound) (lifetime : Duration) : (c.setLifetime lifetime).Sound :=
  { h with }

theorem Sound.setBudget (h : c.Sound) (budget : Nat) : (c.setBudget budget).Sound := by
  have ht : { c with budget }.Tallied := { h.toTallied with }
  obtain ⟨ht, hle⟩ := ht.shrink budget
  exact ⟨ht, hle⟩

/-- The cache without the entry for `key`, if there is one. -/
def without (c : Cache) (key : Bytes) : Cache :=
  match c.find? key with
  | some e => c.drop e
  | none => c

theorem Tallied.without (h : c.Tallied) (key : Bytes) :
    (c.without key).Tallied ∧ ∀ e ∈ (c.without key).entries, e.key ≠ key := by
  unfold Cache.without
  split
  · rename_i e he
    obtain ⟨hmem, rfl⟩ := h.find?_eq_some_iff.1 he
    refine ⟨h.drop hmem, fun e' he' => ?_⟩
    obtain ⟨front, back, hes⟩ := List.append_of_mem hmem
    have hk := h.keys
    rw [hes] at hk
    simp only [Cache.drop, hes, eraseP_key hk] at he'
    rw [List.map_append, List.map_cons, List.nodup_middle, List.nodup_cons, ← List.map_append] at hk
    exact fun heq => hk.1 (heq ▸ List.mem_map_of_mem he')
  · rename_i hn
    refine ⟨h, fun e he hkey => ?_⟩
    rw [h.find?_eq_some_iff.2 ⟨he, hkey⟩] at hn
    simp at hn

theorem budget_without (c : Cache) (key : Bytes) : (c.without key).budget = c.budget := by
  unfold Cache.without
  split <;> rfl

theorem lifetime_without (c : Cache) (key : Bytes) : (c.without key).lifetime = c.lifetime := by
  unfold Cache.without
  split <;> rfl

/-- The cache with one entry more, in front. -/
def adding (c : Cache) (e : CacheEntry) : Cache :=
  { c with
    entries := e :: c.entries
    total := c.total + e.size
    horizon := some ((c.horizon.map (min e.expires)).getD e.expires) }

theorem Tallied.adding (h : c.Tallied) {e : CacheEntry} (hkey : ∀ e' ∈ c.entries, e'.key ≠ e.key)
    (hsize : e.size = CacheEntry.footprint e.key e.reply) : (c.adding e).Tallied where
  keys := by
    refine List.nodup_cons.2 ⟨fun hm => ?_, h.keys⟩
    obtain ⟨e', he', heq⟩ := List.mem_map.1 hm
    exact hkey e' he' heq
  total := by
    show c.total + e.size = e.size + occupied c.entries
    rw [h.total, Nat.add_comm]
  size := List.forall_mem_cons.2 ⟨hsize, h.size⟩
  horizon := by simp [Cache.adding]
  le_expires t ht := by
    rw [← Option.some.inj ht]
    rcases hh : c.horizon with _ | t'
    · have hnil := h.horizon.1 hh
      simp [Cache.adding, hnil]
    · refine List.forall_mem_cons.2 ⟨Nat.min_le_left _ _, fun e' he' => ?_⟩
      exact Nat.le_trans (Nat.min_le_right _ _) (h.le_expires t' hh e' he')

/-- A reply is kept unless it is a part of an answer or there is no room for it at all; then an
older one for the key goes, and so do as many others as stand in its way. -/
theorem insert_eq (c : Cache) (key : Bytes) (r : Reply) (now : Instant) :
    c.insert key r now =
      if r.isContinued = true ∨ c.budget < CacheEntry.footprint key r then (false, c)
      else (true, ((c.without key).shrink (c.budget - CacheEntry.footprint key r)).adding
        ⟨key, r, c.expiry now, CacheEntry.footprint key r⟩) := by
  unfold Cache.insert
  dsimp only
  by_cases hr : r.isContinued = true
  · rw [if_pos hr, if_pos (Or.inl hr)]
  · rw [if_neg hr]
    by_cases hb : c.budget < CacheEntry.footprint key r
    · rw [if_pos hb, if_pos (Or.inr hb)]
    · rw [if_neg hb, if_neg (not_or.2 ⟨hr, hb⟩)]
      unfold Cache.without
      rcases hf : c.find? key with _ | e <;> rfl

/-- A reply that is not kept changes nothing; one that is takes the place of what was kept for the
key. -/
theorem Tallied.insert_cases (h : c.Tallied) (key : Bytes) (r : Reply) (now : Instant) :
    c.insert key r now = (false, c) ∨
      (c.insert key r now).1 = true ∧ r.isContinued = false ∧
        ∀ e ∈ (c.insert key r now).2.entries,
          e.key = key ∧ e.reply = r ∨ e.key ≠ key ∧ e ∈ c.entries := by
  rw [insert_eq]
  split
  · exact Or.inl rfl
  · rename_i hr
    refine Or.inr ⟨rfl, Bool.eq_false_iff.2 (not_or.1 hr).1, fun e he => ?_⟩
    rcases List.mem_cons.1 he with rfl | he
    · exact Or.inl ⟨rfl, rfl⟩
    · have hw := mem_of_shrink he
      refine Or.inr ⟨(h.without key).2 e hw, ?_⟩
      unfold Cache.without at hw
      split at hw
      · exact mem_of_drop hw
      · exact hw

theorem Sound.insert (h : c.Sound) (key : Bytes) (r : Reply) (now : Instant) :
    (c.insert key r now).2.Sound := by
  rw [insert_eq]
  split
  · exact h
  · rename_i hr
    obtain ⟨-, hb⟩ := not_or.1 hr
    obtain ⟨hw, hkey⟩ := h.toTallied.without key
    obtain ⟨ht, hle⟩ := hw.shrink (c.budget - CacheEntry.footprint key r)
    refine ⟨ht.adding (fun e he => hkey e (mem_of_shrink he)) rfl, ?_⟩
    show _ + CacheEntry.footprint key r ≤ (c.without key).budget
    rw [budget_without]
    omega

end

end Cache

end Treegram
