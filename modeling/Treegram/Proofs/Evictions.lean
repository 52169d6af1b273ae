import Treegram.Proofs.LinkedCaches

/-!
# Which entries go, and in what order

Entries that outgrow a budget go from the end, and no more of them than have to: what stays is the
longest row from the front that fits (`LongestWithin`). So a reply that is kept stands in front of
the entries for other keys that fit beside it, and a cache that gets another budget keeps those that
fit into that.

An entry comes to the front when a reply is kept under its key and when it is found, and no
operation changes the order otherwise. So the entries stand in the order of their last use
(`inOrder_run`).
-/

namespace Treegram

namespace Cache

/-! ## What fits -/

/-- Whether `kept` is the longest row of the entries, from the first of them on, that occupies at
most `limit`. -/
structure LongestWithin (limit : Nat) (es kept : List CacheEntry) : Prop where
  front : kept <+: es
  fits : occupied kept ≤ limit
  longest : ∀ other, other <+: es → occupied other ≤ limit → other <+: kept

theorem LongestWithin.unique {limit : Nat} {es kept kept' : List CacheEntry}
    (h : LongestWithin limit es kept) (h' : LongestWithin limit es kept') : kept = kept' := by
  have hle := (h'.longest kept h.front h.fits).length_le
  have hle' := h.longest kept' h'.front h'.fits
  exact (hle'.eq_of_length (Nat.le_antisymm hle'.length_le hle)).symm

/-- No longer row from the end would have met the limit. -/
theorem suffix_shed {limit : Nat} {other : List CacheEntry} (hfits : occupied other ≤ limit) :
    ∀ {es : List CacheEntry}, other <:+ es → other <:+ (shed limit es (occupied es)).1
  | [], h => h
  | e :: es, h => by
    have hc : occupied (e :: es) - e.size = occupied es := Nat.add_sub_cancel_left ..
    simp only [shed, hc]
    split
    · rename_i hlt
      rcases List.suffix_cons_iff.1 h with rfl | h
      · omega
      · exact suffix_shed hfits h
    · exact h

section

variable {c : Cache}

theorem Tallied.longest_shrink (h : c.Tallied) (limit : Nat) :
    LongestWithin limit c.entries (c.shrink limit).entries := by
  have hr : occupied c.entries.reverse = c.total :=
    (occupied_perm c.entries.reverse_perm).trans h.total.symm
  obtain ⟨hs, ht, hle⟩ := shed_spec limit c.entries.reverse
  have hmax := @suffix_shed limit
  have hkept : (c.shrink limit).entries = (shed limit c.entries.reverse c.total).1.reverse := rfl
  rw [hr] at hs ht hle
  rw [hkept]
  refine ⟨?_, ?_, fun other hother hfits => ?_⟩
  · exact List.reverse_suffix.1 (by rwa [List.reverse_reverse])
  · rw [occupied_perm (List.reverse_perm _), ← ht]
    exact hle
  · have hfits' : occupied other.reverse ≤ limit := by
      rwa [occupied_perm (List.reverse_perm other)]
    have := hmax hfits' (List.reverse_suffix.2 hother)
    rw [hr] at this
    exact List.reverse_suffix.1 (by rwa [List.reverse_reverse])

/-! ## What the operations leave -/

/-- The only entry for a key goes if all entries for it go. -/
theorem eraseP_eq_filter (key : Bytes) : ∀ {es : List CacheEntry},
    (es.map CacheEntry.key).Nodup →
      es.eraseP (fun e => e.key == key) = es.filter fun e => e.key ≠ key
  | [], _ => rfl
  | e :: es, h => by
    obtain ⟨hnot, hes⟩ := List.nodup_cons.1 h
    by_cases hkey : e.key = key
    · have hothers : ∀ e' ∈ es, decide (e'.key ≠ key) = true := fun e' he' => by
        rw [decide_eq_true_iff]
        rintro heq
        exact hnot (List.mem_map.2 ⟨e', he', heq.trans hkey.symm⟩)
      rw [List.eraseP_cons_of_pos (by simpa using hkey),
        List.filter_cons_of_neg (by simpa using hkey), List.filter_eq_self.2 hothers]
    · rw [List.eraseP_cons_of_neg (by simpa using hkey),
        List.filter_cons_of_pos (by simpa using hkey), eraseP_eq_filter key hes]

theorem Tallied.entries_without (h : c.Tallied) (key : Bytes) :
    (c.without key).entries = c.entries.filter fun e => e.key ≠ key := by
  rw [← eraseP_eq_filter key h.keys]
  unfold Cache.without
  rcases hf : c.find? key with _ | e
  · exact (List.eraseP_of_forall_not (List.find?_eq_none.1 hf)).symm
  · rw [← (h.find?_eq_some_iff.1 hf).2]
    rfl

/-- A reply that is kept comes to the front, and of the entries for other keys those stay that fit
beside it. -/
theorem Tallied.entries_insert (h : c.Tallied) {key : Bytes} {r : Reply} {now : Instant}
    (hkept : (c.insert key r now).1 = true) : ∃ kept,
      (c.insert key r now).2.entries =
        ⟨key, r, c.expiry now, CacheEntry.footprint key r⟩ :: kept ∧
      LongestWithin (c.budget - CacheEntry.footprint key r)
        (c.entries.filter fun e => e.key ≠ key) kept := by
  rw [insert_eq] at hkept ⊢
  split
  · rename_i hr
    simp [hr] at hkept
  · have hshrunk := (h.without key).1.longest_shrink (c.budget - CacheEntry.footprint key r)
    rw [h.entries_without] at hshrunk
    exact ⟨_, rfl, hshrunk⟩

theorem Tallied.longest_setBudget (h : c.Tallied) (budget : Nat) :
    LongestWithin budget c.entries (c.setBudget budget).entries := by
  have hbudget : { c with budget }.Tallied := { h with }
  exact hbudget.longest_shrink budget

/-- A look-up drops what is stale, and what it finds among the rest comes to the front. -/
theorem Tallied.lookup_eq (h : c.Tallied) (key : Bytes) (now : Instant) :
    c.lookup key now =
      match (c.entries.filter fun e => now < e.expires).find? fun e => e.key == key with
      | some e => (some e.reply, { c.expireIfDue now with entries :=
          e :: (c.entries.filter fun e => now < e.expires).filter fun e => e.key ≠ key })
      | none => (none, c.expireIfDue now) := by
  have hdue := h.expireIfDue now
  rw [← h.entries_expireIfDue, ← eraseP_eq_filter key hdue.keys]
  rfl

/-! ## The order of use -/

/-- The key that a call uses, if it does: that under which a reply is kept, or is found. -/
def used? (c : Cache) : CacheCall → Option Bytes
  | .insert key reply now => if (c.insert key reply now).1 then some key else none
  | .lookup key now => if (c.lookup key now).1.isSome then some key else none
  | _ => none

/-- The keys that the calls use, one after the other. -/
def uses (c : Cache) : List CacheCall → List Bytes
  | [] => []
  | call :: calls => (c.used? call).toList ++ (c.perform call).2.uses calls

/-- Whether the last use of `key` comes behind that of `other`. -/
def UsedAfter (uses : List Bytes) (key other : Bytes) : Prop :=
  ∃ before after, uses = before ++ key :: after ∧ other ∈ before ∧ other ∉ after

/-- A call that uses a key brings its entry to the front, and leaves out of the others what it
drops; any other call only drops entries. -/
theorem Sound.entries_perform (h : c.Sound) (call : CacheCall) :
    (∃ e rest, c.used? call = some e.key ∧ (c.perform call).2.entries = e :: rest ∧
        rest.Sublist (c.entries.filter fun e' => e'.key ≠ e.key)) ∨
      c.used? call = none ∧ (c.perform call).2.entries.Sublist c.entries := by
  have ht := h.toTallied
  cases call with
  | insert key reply now =>
    by_cases hkept : (c.insert key reply now).1 = true
    · obtain ⟨kept, hentries, hlongest⟩ := ht.entries_insert hkept
      exact Or.inl ⟨_, kept, by rw [used?, if_pos hkept], hentries, hlongest.front.sublist⟩
    · refine Or.inr ⟨by rw [used?, if_neg hkept], ?_⟩
      rcases ht.insert_cases key reply now with hsame | ⟨hkept', -⟩
      · simp only [Cache.perform, hsame]
        exact List.Sublist.refl _
      · exact absurd hkept' hkept
  | lookup key now =>
    have hlookup := ht.lookup_eq key now
    rcases hf : (c.entries.filter fun e => now < e.expires).find? fun e => e.key == key
      with _ | e <;> rw [hf] at hlookup
    · refine Or.inr ⟨by simp [used?, hlookup], ?_⟩
      simp only [Cache.perform, hlookup, ht.entries_expireIfDue]
      exact List.filter_sublist
    · have hkey : e.key = key := beq_iff_eq.1 (List.find?_some hf :)
      have hentries : (c.perform (.lookup key now)).2.entries =
          e :: (c.entries.filter fun e => now < e.expires).filter fun e => e.key ≠ key := by
        simp only [Cache.perform, hlookup]
      refine Or.inl ⟨e, _, by simp [used?, hlookup, hkey], hentries, ?_⟩
      rw [hkey]
      exact List.filter_sublist.filter _
  | contains key now => exact Or.inr ⟨rfl, List.Sublist.refl _⟩
  | clear all now =>
    refine Or.inr ⟨rfl, ?_⟩
    simp only [Cache.perform, Cache.clear]
    split
    · exact List.nil_sublist _
    · rw [entries_dropExpired]
      exact List.filter_sublist
  | setLifetime lifetime => exact Or.inr ⟨rfl, List.Sublist.refl _⟩
  | setBudget budget => exact Or.inr ⟨rfl, (ht.longest_setBudget budget).front.sublist⟩

/-- Whether the entries are all used before, and stand in the order of their last use, the one used
last in front. -/
structure InOrder (c : Cache) (past : List Bytes) : Prop where
  used : ∀ e ∈ c.entries, e.key ∈ past
  order : (c.entries.map CacheEntry.key).Pairwise (UsedAfter past)

theorem UsedAfter.append {past : List Bytes} {key other used : Bytes} (h : UsedAfter past key other)
    (hne : other ≠ used) : UsedAfter (past ++ [used]) key other := by
  obtain ⟨before, after, rfl, hmem, hnot⟩ := h
  refine ⟨before, after ++ [used], by rw [List.append_assoc, List.cons_append], hmem, ?_⟩
  simp [hnot, hne]

theorem InOrder.perform {past : List Bytes} (hc : c.Sound) (h : c.InOrder past) (call : CacheCall) :
    (c.perform call).2.InOrder (past ++ (c.used? call).toList) := by
  rcases hc.entries_perform call with ⟨e, rest, hused, hentries, hrest⟩ | ⟨hused, hsub⟩ <;>
    rw [hused]
  · have hmem : ∀ e' ∈ rest, e' ∈ c.entries ∧ e'.key ≠ e.key := fun e' he' => by
      have := List.mem_filter.1 (hrest.subset he')
      exact ⟨this.1, decide_eq_true_iff.1 this.2⟩
    have hall : ∀ e' ∈ e :: rest, e'.key ∈ past ++ [e.key] := List.forall_mem_cons.2
      ⟨by simp, fun e' he' => List.mem_append_left _ (h.used e' (hmem e' he').1)⟩
    refine ⟨by rw [hentries]; exact hall, ?_⟩
    rw [hentries, List.map_cons, List.pairwise_cons]
    constructor
    · intro other hother
      obtain ⟨e', he', rfl⟩ := List.mem_map.1 hother
      exact ⟨past, [], rfl, h.used e' (hmem e' he').1, List.not_mem_nil⟩
    · have hpast := h.order.sublist ((hrest.trans List.filter_sublist).map CacheEntry.key)
      refine hpast.imp_of_mem fun {key other} _ hother hafter => ?_
      obtain ⟨e', he', rfl⟩ := List.mem_map.1 hother
      exact hafter.append (hmem e' he').2
  · rw [Option.toList_none, List.append_nil]
    exact ⟨fun e he => h.used e (hsub.subset he), h.order.sublist (hsub.map _)⟩

theorem InOrder.run : ∀ (calls : List CacheCall) {c : Cache} {past : List Bytes}, c.Sound →
    c.InOrder past → (c.run calls).2.InOrder (past ++ c.uses calls)
  | [], c, past, _, h => by
    rw [uses, List.append_nil]
    exact h
  | call :: calls, c, past, hc, h => by
    rw [uses, ← List.append_assoc]
    exact run calls (hc.perform call) (h.perform hc call)

end

end Cache

namespace LinkedCache

/-- The entries from the one in a given slot on, as they are linked. -/
def entriesFrom (c : LinkedCache) : Option Nat → Option (List CacheEntry)
  | none => some []
  | some k => do
    let e ← c.entries.get? k
    let es ← c |>.entriesFrom e.next
    some (e.toCacheEntry :: es)
partial_fixpoint

/-- The entries from the head on. -/
def order (c : LinkedCache) : Option (List CacheEntry) :=
  c.entriesFrom c.head

variable {c : LinkedCache} {m : Cache} {ps : List (Nat × CacheEntry)}

theorem entriesFrom_eq : ∀ {ps : List (Nat × CacheEntry)} {previous : Option Nat},
    Strung c.entries previous none ps → c.entriesFrom (slots ps).head? = some (ps.map Prod.snd)
  | [], _, _ => by rw [slots_nil, List.head?_nil, entriesFrom, List.map_nil]
  | (k, e) :: ps, _, ⟨hk, hs⟩ => by
    rw [slots_cons, List.head?_cons, entriesFrom, hk]
    simp only [Option.bind_eq_bind, Option.bind_some, Option.or_none, entriesFrom_eq hs]
    rfl

theorem Holds.order (h : c.Holds m ps) : c.order = some m.entries := by
  rw [LinkedCache.order, h.chained.head, entriesFrom_eq h.chained.strung, h.entries]

/-- Behind any calls the entries are linked in the order in which they stand without links. -/
theorem order_run (lifetime : Duration) (budget : Nat) (calls : List CacheCall) :
    ∃ c, (empty lifetime budget).run calls =
        some (((Cache.empty lifetime budget).run calls).1, c) ∧
      c.order = some ((Cache.empty lifetime budget).run calls).2.entries := by
  obtain ⟨c, ps, hc, h, -⟩ :=
    (holds_empty lifetime budget).run calls (Cache.sound_empty lifetime budget)
  exact ⟨c, hc, h.order⟩

end LinkedCache

namespace Cache

theorem inOrder_run (lifetime : Duration) (budget : Nat) (calls : List CacheCall) :
    ((empty lifetime budget).run calls).2.InOrder ((empty lifetime budget).uses calls) := by
  have hnone : (empty lifetime budget).InOrder [] :=
    ⟨fun e he => absurd he List.not_mem_nil, List.Pairwise.nil⟩
  exact hnone.run calls (sound_empty lifetime budget)

/-- Whatever was asked of a cache, at whatever times: a reply is refused exactly if it is a part of
an answer or exceeds the whole budget, and then nothing changes; one that is kept comes to the
front, and of the entries for other keys the longest row stays that fits beside it. With another
budget the longest row stays that fits into that. The entries stand in the order of their last use,
and are linked in this order. -/
theorem evictions_minimal (lifetime : Duration) (budget : Nat) (calls : List CacheCall) :
    let c := ((empty lifetime budget).run calls).2
    (∀ key r now,
      ((c.insert key r now).1 = false ↔
        r.isContinued = true ∨ c.budget < CacheEntry.footprint key r) ∧
      ((c.insert key r now).1 = false → (c.insert key r now).2 = c) ∧
      ((c.insert key r now).1 = true → ∃ kept,
        (c.insert key r now).2.entries =
          ⟨key, r, c.expiry now, CacheEntry.footprint key r⟩ :: kept ∧
        LongestWithin (c.budget - CacheEntry.footprint key r)
          (c.entries.filter fun e => e.key ≠ key) kept)) ∧
    (∀ limit, LongestWithin limit c.entries (c.setBudget limit).entries) ∧
    c.InOrder ((empty lifetime budget).uses calls) ∧
    ∃ linked, (LinkedCache.empty lifetime budget).run calls =
        some (((empty lifetime budget).run calls).1, linked) ∧
      linked.order = some c.entries := by
  intro c
  have h : c.Tallied := ((sound_empty lifetime budget).run calls).toTallied
  refine ⟨fun key r now => ⟨?_, fun hrefused => ?_, h.entries_insert⟩, h.longest_setBudget,
    inOrder_run lifetime budget calls, LinkedCache.order_run lifetime budget calls⟩
  · rw [insert_eq]
    split <;> simp_all
  · rcases h.insert_cases key r now with hsame | ⟨hkept, -⟩
    · rw [hsame]
    · rw [hkept] at hrefused
      simp at hrefused

/-- A reply that holds the given elements. -/
def replyOf (elements : Forest Label) : Reply :=
  ⟨⟨.document, .nil⟩, ⟨.element Reply.responseName "", elements⟩, 1⟩

/-- Of three entries that fill the budget the first is found. Then the second is the one that goes
when another comes in, and a part of an answer does not come in. -/
theorem evictions_minimal_sample :
    let whole := replyOf .nil
    let part := replyOf (.single ⟨.element Reply.continuedName "", .nil⟩)
    let f := CacheEntry.footprint [0] whole
    let calls : List CacheCall := [.insert [0] whole 0, .insert [1] whole 0, .insert [2] whole 0,
      .lookup [0] 0]
    let c := ((empty 200 (3 * f)).run calls).2
    (c.entries.map CacheEntry.key = [[0], [2], [1]] ∧
      UsedAfter ((empty 200 (3 * f)).uses calls) [0] [2]) ∧
    ((c.insert [3] whole 0).1 = true ∧
      (c.insert [3] whole 0).2.entries.map CacheEntry.key = [[3], [0], [2]] ∧
      ∃ kept, (c.insert [3] whole 0).2.entries = ⟨[3], whole, 200, f⟩ :: kept ∧
        LongestWithin (2 * f) c.entries kept) ∧
    ((c.insert [0] part 0).1 = false ∧ (c.insert [0] part 0).2 = c) ∧
    (c.setBudget f).entries.map CacheEntry.key = [[0]] ∧
      LongestWithin f c.entries (c.setBudget f).entries := by
  intro whole part f calls c
  obtain ⟨hinsert, hbudget, hused, -⟩ := evictions_minimal 200 (3 * f) calls
  have hkeys : c.entries.map CacheEntry.key = [[0], [2], [1]] := by decide
  have horder := hused.order
  rw [hkeys] at horder
  have hkept := (hinsert [3] whole 0).2.2 (by decide)
  have hexpiry : c.expiry 0 = 200 := by decide
  have hroom : c.budget - CacheEntry.footprint [3] whole = 2 * f := by decide
  have hothers : (c.entries.filter fun e => e.key ≠ [3]) = c.entries := by decide
  rw [show ((empty 200 (3 * f)).run calls).2 = c from rfl, hexpiry, hroom, hothers] at hkept
  exact ⟨⟨hkeys, List.rel_of_pairwise_cons horder List.mem_cons_self⟩,
    ⟨by decide, by decide, hkept⟩,
    ⟨by decide, (hinsert [0] part 0).2.1 (by decide)⟩, by decide, hbudget f⟩

end Cache

end Treegram
