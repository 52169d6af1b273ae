import Treegram.Proofs.Evictions

/-!
# Stale entries and the room they take

Room for a reply is made by use alone: an entry stays exactly if it fits beside the new one together
with the entries used after it (`Tallied.mem_insert_iff`), whether it is stale or not. So an entry
that is not stale may go while one that is stays, but then the stale one was used after it
(`displaced_by_use`). Stale entries go first where the entries are scanned for them, that is with a
look-up or when the cache is cleared, and behind a scan no stale entry takes the place of another.
-/

namespace Treegram

/-- The time for which a call scans the entries, if it does. -/
def CacheCall.scan? : CacheCall → Option Instant
  | .lookup _ now | .clear _ now => some now
  | _ => none

namespace Cache

/-- The entries for other keys than `key` that were used after the one for `own`. -/
def ahead (c : Cache) (key own : Bytes) : List CacheEntry :=
  (c.entries.filter fun e => e.key ≠ key).takeWhile fun e => e.key ≠ own

/-- Whether `live`, which is not stale, goes for want of room when `r` comes in for `key` at `now`,
and `stale`, which is, stays. -/
structure Displaces (c : Cache) (key : Bytes) (r : Reply) (now : Instant)
    (stale live : CacheEntry) : Prop where
  stale_mem : stale ∈ c.entries
  live_mem : live ∈ c.entries
  /-- What was kept for the key itself goes in any case. -/
  others : stale.key ≠ key ∧ live.key ≠ key
  expired : stale.expires ≤ now
  unexpired : now < live.expires
  stays : stale ∈ (c.insert key r now).2.entries
  goes : live ∉ (c.insert key r now).2.entries

variable {c : Cache} {key : Bytes} {r : Reply} {now t : Instant} {e stale live : CacheEntry}

theorem LongestWithin.mem_iff {limit : Nat} {es kept front back : List CacheEntry}
    (h : LongestWithin limit es kept) (hd : es.Nodup) (hes : es = front ++ e :: back) :
    e ∈ kept ↔ occupied (front ++ [e]) ≤ limit := by
  have hfront : front ++ [e] <+: es := ⟨back, by simp [hes]⟩
  constructor
  · intro he
    have hlong : front ++ [e] <+: kept := by
      rcases List.prefix_or_prefix_of_prefix hfront h.front with hp | hp
      · exact hp
      · rcases List.prefix_concat_iff.1 hp with rfl | hp
        · exact List.prefix_refl _
        · rw [hes] at hd
          exact absurd (hp.subset he) fun hmem => List.disjoint_of_nodup_append hd hmem (by simp)
    obtain ⟨rest, rfl⟩ := hlong
    have hfits := h.fits
    rw [occupied_append] at hfits
    omega
  · intro hfits
    exact (h.longest _ hfront hfits).subset (by simp)

theorem Tallied.nodup_others (h : c.Tallied) (key : Bytes) :
    ((c.entries.filter fun e => e.key ≠ key).map CacheEntry.key).Nodup :=
  h.keys.sublist (List.filter_sublist.map _)

/-- An entry stays exactly if it fits beside the new one with all entries used after it. -/
theorem Tallied.mem_insert_iff (h : c.Tallied) (hkept : (c.insert key r now).1 = true)
    (he : e ∈ c.entries) (hne : e.key ≠ key) :
    e ∈ (c.insert key r now).2.entries ↔
      occupied (c.ahead key e.key) + e.size + CacheEntry.footprint key r ≤ c.budget := by
  obtain ⟨kept, hentries, hlongest⟩ := h.entries_insert hkept
  have hroom : CacheEntry.footprint key r ≤ c.budget := by
    rw [insert_eq] at hkept
    split at hkept
    · simp at hkept
    · rename_i hr
      exact Nat.not_lt.1 (not_or.1 hr).2
  have hkeys := h.nodup_others key
  have hmem : e ∈ c.entries.filter fun e => e.key ≠ key :=
    List.mem_filter.2 ⟨he, decide_eq_true hne⟩
  obtain ⟨front, back, hes⟩ := List.append_of_mem hmem
  have hahead : c.ahead key e.key = front := by
    rw [hes, List.map_append, List.map_cons] at hkeys
    have hfront : ∀ e' ∈ front, decide (e'.key ≠ e.key) = true := by
      intro e' he'
      rw [decide_eq_true_iff]
      intro heq
      exact List.disjoint_of_nodup_append hkeys (List.mem_map_of_mem he') (by simp [heq])
    rw [ahead, hes, List.takeWhile_append_of_pos hfront]
    simp
  have hnew : e ≠ ⟨key, r, c.expiry now, CacheEntry.footprint key r⟩ := fun heq => hne (heq ▸ rfl)
  rw [hentries, List.mem_cons, or_iff_right hnew, hlongest.mem_iff hkeys.of_map hes, hahead,
    occupied_append]
  show occupied front + (e.size + 0) ≤ _ ↔ _
  omega

/-- What stays was used after what goes. -/
theorem Displaces.usedAfter {past : List Bytes} (h : c.Displaces key r now stale live)
    (hc : c.Tallied) (hused : c.InOrder past) : UsedAfter past stale.key live.key := by
  have hkept : (c.insert key r now).1 = true := by
    rcases hc.insert_cases key r now with hsame | ⟨hkept, -⟩
    · have hgoes := h.goes
      rw [hsame] at hgoes
      exact absurd h.live_mem hgoes
    · exact hkept
  obtain ⟨kept, hentries, ⟨rest, hrest⟩, -⟩ := hc.entries_insert hkept
  have hstays := h.stays
  have hgoes := h.goes
  rw [hentries, List.mem_cons] at hstays hgoes
  have hstale : stale ∈ kept := hstays.resolve_left fun heq => h.others.1 (heq ▸ rfl)
  have hlive : live ∈ rest := by
    have hmem : live ∈ c.entries.filter fun e => e.key ≠ key :=
      List.mem_filter.2 ⟨h.live_mem, decide_eq_true h.others.2⟩
    rw [← hrest, List.mem_append] at hmem
    exact hmem.resolve_left (not_or.1 hgoes).2
  have hothers : (kept ++ rest).Sublist c.entries := by
    rw [hrest]
    exact List.filter_sublist
  have horder := hused.order.sublist (hothers.map CacheEntry.key)
  rw [List.map_append, List.pairwise_append] at horder
  exact horder.2.2 _ (List.mem_map_of_mem hstale) _ (List.mem_map_of_mem hlive)

/-- Behind a scan there is no stale entry. -/
theorem Tallied.lt_expires_of_scan (h : c.Tallied) {call : CacheCall} (hs : call.scan? = some t)
    (he : e ∈ (c.perform call).2.entries) : t < e.expires := by
  cases call with
  | lookup key now =>
    obtain rfl := Option.some.inj hs
    have hlive : e ∈ c.entries.filter fun e => now < e.expires := by
      simp only [Cache.perform, h.lookup_eq] at he
      split at he
      · rename_i found hfound
        rcases List.mem_cons.1 he with rfl | he
        · exact List.mem_of_find?_eq_some hfound
        · exact List.mem_of_mem_filter he
      · rwa [h.entries_expireIfDue] at he
    exact decide_eq_true_iff.1 (List.mem_filter.1 hlive).2
  | clear all now =>
    obtain rfl := Option.some.inj hs
    simp only [Cache.perform, Cache.clear] at he
    split at he
    · simp at he
    · rw [entries_dropExpired, List.mem_filter, decide_eq_true_iff] at he
      exact he.2
  | insert key reply now => simp [CacheCall.scan?] at hs
  | contains key now => simp [CacheCall.scan?] at hs
  | setLifetime lifetime => simp [CacheCall.scan?] at hs
  | setBudget budget => simp [CacheCall.scan?] at hs

/-- Whatever was asked of a cache, at whatever times: an entry that is not stale goes for want of
room while a stale one stays only if the stale one was used after it. A reply that is kept leaves
those entries for other keys that fit beside it together with all entries used after them, whatever
their expiry; and behind a scan no stale entry takes the place of another. -/
theorem displaced_by_use (lifetime : Duration) (budget : Nat) (calls : List CacheCall) :
    let c := ((empty lifetime budget).run calls).2
    (∀ key r now stale live, c.Displaces key r now stale live →
      UsedAfter ((empty lifetime budget).uses calls) stale.key live.key) ∧
    (∀ key r now, (c.insert key r now).1 = true → ∀ e ∈ c.entries, e.key ≠ key →
      (e ∈ (c.insert key r now).2.entries ↔
        occupied (c.ahead key e.key) + e.size + CacheEntry.footprint key r ≤ c.budget)) ∧
    ∀ call t, call.scan? = some t → ∀ now ≤ t, ∀ key r stale live,
      ¬(c.perform call).2.Displaces key r now stale live := by
  intro c
  have h : c.Tallied := ((sound_empty lifetime budget).run calls).toTallied
  refine ⟨fun key r now stale live hd => hd.usedAfter h (inOrder_run lifetime budget calls),
    fun key r now hkept e he hne => h.mem_insert_iff hkept he hne,
    fun call t hs now hle key r stale live hd => ?_⟩
  have hlt := h.lt_expires_of_scan hs hd.stale_mem
  exact Nat.not_lt.2 (Nat.le_trans hd.expired hle) hlt

/-- Two entries that fill the budget. The one that expires first is found again, so the other is the
one used least recently. -/
def hurried : List CacheCall :=
  [.insert [0] (replyOf .nil) 0, .setLifetime 1000, .insert [1] (replyOf .nil) 0, .lookup [0] 0]

/-- What the entries in `hurried` occupy each. -/
def hurriedSize : Nat :=
  CacheEntry.footprint [0] (replyOf .nil)

def hurriedEntry (key : UInt8) (expires : Instant) : CacheEntry :=
  ⟨[key], replyOf .nil, expires, hurriedSize⟩

theorem displaces_hurried : ((empty 10 (2 * hurriedSize)).run hurried).2.Displaces [2]
    (replyOf .nil) 20 (hurriedEntry 0 10) (hurriedEntry 1 1000) where
  stale_mem := by decide
  live_mem := by decide
  others := by decide
  expired := by decide
  unexpired := by decide
  stays := by decide
  goes := by decide

/-- Once the first entry of `hurried` is stale it stays where the second one goes, unless a look-up
comes in between. -/
theorem displaced_by_use_hurried :
    let c := ((empty 10 (2 * hurriedSize)).run hurried).2
    c.Displaces [2] (replyOf .nil) 20 (hurriedEntry 0 10) (hurriedEntry 1 1000) ∧
      UsedAfter ((empty 10 (2 * hurriedSize)).uses hurried) [0] [1] ∧
      (c.insert [2] (replyOf .nil) 20).1 = true ∧
      occupied (c.ahead [2] [0]) + hurriedSize + hurriedSize ≤ c.budget ∧
      ¬(c.perform (.lookup [3] 20)).2.Displaces [2] (replyOf .nil) 20 (hurriedEntry 0 10)
        (hurriedEntry 1 1000) := by
  intro c
  obtain ⟨hused, hstays, hscan⟩ := displaced_by_use 10 (2 * hurriedSize) hurried
  have hd := displaces_hurried
  have hkept : (c.insert [2] (replyOf .nil) 20).1 = true := by decide
  exact ⟨hd, hused [2] (replyOf .nil) 20 _ _ hd, hkept,
    (hstays [2] (replyOf .nil) 20 hkept (hurriedEntry 0 10) hd.stale_mem (by decide)).1 hd.stays,
    hscan (.lookup [3] 20) 20 rfl 20 (Nat.le_refl 20) [2] (replyOf .nil) _ _⟩

/-- Whether no entry that is not stale ever goes for want of room while a stale one stays. -/
def ShedsStaleFirst : Prop :=
  ∀ (lifetime : Duration) (budget : Nat) (calls : List CacheCall) (key : Bytes) (r : Reply)
    (now : Instant) (stale live : CacheEntry),
      ¬((empty lifetime budget).run calls).2.Displaces key r now stale live

/-- A stale entry that was found takes the place of one that is not stale. -/
theorem not_shedsStaleFirst : ¬ShedsStaleFirst := by
  intro h
  exact h 10 (2 * hurriedSize) hurried [2] (replyOf .nil) 20 _ _ displaces_hurried

end Cache

end Treegram
