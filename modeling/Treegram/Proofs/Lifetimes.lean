import Treegram.Proofs.Scanning

/-!
# How long an entry lives

An entry that came in is found until its lifetime is over, and from then on it is not, whatever else
the cache is asked for meanwhile (`Lives.found_run`). What ends the lifetime is the clock's sum of
the time at which the entry came in and the lifetime. Where the clock does not hold that sum, the
entry is stale from the start; so a lifetime without end is none at all (`not_livesFully`).
-/

namespace Treegram

namespace Cache

/-- Whether the calls only ask what is kept, at times of which none is before `now` or before the
one in front of it. -/
def AskedFrom (now : Instant) : List CacheCall → Prop
  | [] => True
  | .lookup _ t :: calls | .contains _ t :: calls => now ≤ t ∧ AskedFrom t calls
  | _ => False

/-- Whether `e` is there at `now` unless it is stale, and no other entry for its key is. -/
structure Lives (c : Cache) (e : CacheEntry) (now : Instant) : Prop where
  tallied : c.Tallied
  only : ∀ e' ∈ c.entries, e'.key = e.key → e' = e
  kept : now < e.expires → e ∈ c.entries

section

variable {c : Cache} {e : CacheEntry} {now t : Instant}

theorem Lives.mono (h : c.Lives e now) (hle : now ≤ t) : c.Lives e t :=
  ⟨h.tallied, h.only, fun ht => h.kept (Nat.lt_of_le_of_lt hle ht)⟩

/-- A look-up keeps what is not stale. -/
theorem Tallied.mem_lookup_of_lt (h : c.Tallied) (key : Bytes) (he : e ∈ c.entries)
    (hnow : now < e.expires) : e ∈ (c.lookup key now).2.entries := by
  have hlive : e ∈ c.entries.filter fun e => now < e.expires :=
    List.mem_filter.2 ⟨he, decide_eq_true hnow⟩
  rw [h.lookup_eq]
  split
  · rename_i found hfound
    by_cases hkey : e.key = key
    · have hmem := List.mem_of_find?_eq_some hfound
      have hfoundKey : found.key = key := beq_iff_eq.1 (List.find?_some hfound :)
      rw [eq_of_key h.keys he (List.mem_filter.1 hmem).1 (hkey.trans hfoundKey.symm)]
      exact List.mem_cons_self
    · exact List.mem_cons_of_mem _ (List.mem_filter.2 ⟨hlive, decide_eq_true hkey⟩)
  · rw [h.entries_expireIfDue]
    exact hlive

theorem Lives.lookup (h : c.Lives e now) (key : Bytes) : (c.lookup key now).2.Lives e now where
  tallied := h.tallied.lookup key now
  only e' he' := h.only e' (mem_of_mem_lookup he')
  kept hnow := h.tallied.mem_lookup_of_lt key (h.kept hnow) hnow

/-- Such an entry is found if it is not stale, and then nothing else is. -/
theorem Lives.found (h : c.Lives e now) :
    (c.lookup e.key now).1 = if now < e.expires then some e.reply else none := by
  split
  · rename_i hnow
    exact h.tallied.lookup_eq_some_iff.2 ⟨e, h.kept hnow, rfl, hnow, rfl⟩
  · rename_i hnow
    refine Option.eq_none_iff_forall_ne_some.2 fun r hr => ?_
    obtain ⟨e', he', hkey, hlt, -⟩ := h.tallied.lookup_eq_some_iff.1 hr
    rw [h.only e' he' hkey] at hlt
    exact hnow hlt

/-- It is so whatever was asked before. -/
theorem Lives.found_run : ∀ (calls : List CacheCall) {c : Cache} {now : Instant}, c.Lives e now →
    AskedFrom now (calls ++ [.lookup e.key t]) →
      ((c.run calls).2.lookup e.key t).1 = if t < e.expires then some e.reply else none
  | [], _, _, h, ⟨hle, _⟩ => (h.mono hle).found
  | .lookup key _ :: calls, _, _, h, ⟨hle, hcalls⟩ =>
    found_run calls ((h.mono hle).lookup key) hcalls
  | .contains _ _ :: calls, _, _, h, ⟨hle, hcalls⟩ => found_run calls (h.mono hle) hcalls
  | .insert _ _ _ :: _, _, _, _, hfalse => hfalse.elim
  | .clear _ _ :: _, _, _, _, hfalse => hfalse.elim
  | .setLifetime _ :: _, _, _, _, hfalse => hfalse.elim
  | .setBudget _ :: _, _, _, _, hfalse => hfalse.elim

theorem AskedFrom.le : ∀ (calls : List CacheCall) {key : Bytes} {now : Instant},
    AskedFrom now (calls ++ [.lookup key t]) → now ≤ t
  | [], _, _, ⟨hle, _⟩ => hle
  | .lookup _ _ :: calls, _, _, ⟨hle, hcalls⟩ => Nat.le_trans hle (le calls hcalls)
  | .contains _ _ :: calls, _, _, ⟨hle, hcalls⟩ => Nat.le_trans hle (le calls hcalls)
  | .insert _ _ _ :: _, _, _, hfalse => hfalse.elim
  | .clear _ _ :: _, _, _, hfalse => hfalse.elim
  | .setLifetime _ :: _, _, _, hfalse => hfalse.elim
  | .setBudget _ :: _, _, _, hfalse => hfalse.elim

/-- An entry that came in lives from then on. -/
theorem Sound.lives_insert (h : c.Sound) {key : Bytes} {r : Reply}
    (hkept : (c.insert key r now).1 = true) :
    (c.insert key r now).2.Lives ⟨key, r, c.expiry now, CacheEntry.footprint key r⟩ now := by
  have htallied := (h.insert key r now).toTallied
  obtain ⟨kept, hentries, -⟩ := h.toTallied.entries_insert hkept
  have hmem : (⟨key, r, c.expiry now, CacheEntry.footprint key r⟩ : CacheEntry) ∈
      (c.insert key r now).2.entries := by
    rw [hentries]
    exact List.mem_cons_self
  exact ⟨htallied, fun e' he' hkey => eq_of_key htallied.keys he' hmem hkey, fun _ => hmem⟩

theorem expiry_eq (c : Cache) (t : Instant) :
    c.expiry t = if t + c.lifetime < Instant.limit then t + c.lifetime else t := by
  unfold expiry Instant.plus?
  split <;> rfl

/-- The lifetime has no say in what is kept. -/
theorem insert_setLifetime (c : Cache) (lifetime : Duration) (key : Bytes) (r : Reply)
    (now : Instant) : ((c.setLifetime lifetime).insert key r now).1 = (c.insert key r now).1 := by
  have hbudget : (c.setLifetime lifetime).budget = c.budget := rfl
  rw [insert_eq, insert_eq, hbudget]
  split <;> rfl

end

/-- What is found for `key` at `t'` when `r` came in for it at `t` and the other calls were made in
between. -/
def foundLater (c : Cache) (key : Bytes) (r : Reply) (t : Instant) (calls : List CacheCall)
    (t' : Instant) : Option Reply :=
  (((c.insert key r t).2.run calls).2.lookup key t').1

theorem Sound.foundLater_eq {c : Cache} {key : Bytes} {r : Reply} {t t' : Instant}
    {calls : List CacheCall} (h : c.Sound) (hkept : (c.insert key r t).1 = true)
    (hasked : AskedFrom t (calls ++ [.lookup key t'])) :
    c.foundLater key r t calls t' = if t' < c.expiry t then some r else none :=
  (h.lives_insert hkept).found_run calls hasked

/-- Behind any calls, at whatever times: a reply that is kept is found until its lifetime is over
and not any more from then on, whatever is asked meanwhile, if the clock holds that time, and it is
never found if the clock does not. So of two lifetimes whose ends the clock holds the longer one
finds what the shorter one does. -/
theorem found_within_lifetime (lifetime : Duration) (budget : Nat) (past : List CacheCall) :
    let c := ((empty lifetime budget).run past).2
    ∀ key r t calls t', (c.insert key r t).1 = true → AskedFrom t (calls ++ [.lookup key t']) →
      (t + c.lifetime < Instant.limit →
        c.foundLater key r t calls t' = if t' < t + c.lifetime then some r else none) ∧
      (Instant.limit ≤ t + c.lifetime → c.foundLater key r t calls t' = none) ∧
      ∀ d d', d ≤ d' → t + d' < Instant.limit →
        (c.setLifetime d).foundLater key r t calls t' = some r →
          (c.setLifetime d').foundLater key r t calls t' = some r := by
  intro c key r t calls t' hkept hasked
  have h : c.Sound := (sound_empty lifetime budget).run past
  have hfound (d : Duration) (hd : t + d < Instant.limit) :
      (c.setLifetime d).foundLater key r t calls t' = if t' < t + d then some r else none := by
    have hkept' := (c.insert_setLifetime d key r t).trans hkept
    rw [(h.setLifetime d).foundLater_eq hkept' hasked, expiry_eq]
    exact congrArg (fun e => if t' < e then some r else none) (if_pos hd)
  refine ⟨hfound c.lifetime, fun hpast => ?_, fun d d' hle hd hfoundShort => ?_⟩
  · rw [h.foundLater_eq hkept hasked, expiry_eq, if_neg (Nat.not_lt.2 hpast),
      if_neg (Nat.not_lt.2 (AskedFrom.le calls hasked))]
  · have hends : t + d ≤ t + d' := Nat.add_le_add_left hle t
    rw [hfound d (Nat.lt_of_le_of_lt hends hd)] at hfoundShort
    rw [hfound d' hd]
    have hlt : t' < t + d := by
      by_contra hnot
      rw [if_neg hnot] at hfoundShort
      simp at hfoundShort
    exact if_pos (Nat.lt_of_lt_of_le hlt hends)

/-- An entry is found up to the end of its lifetime of 3, behind look-ups for it and for another
key, and not at that end. -/
theorem found_within_lifetime_sample :
    let c := ((empty 3 65536).run [.insert [1] (replyOf .nil) 0]).2
    let calls : List CacheCall := [.lookup [1] 4, .contains [0] 6, .lookup [0] 6]
    (c.insert [0] (replyOf .nil) 4).1 = true ∧
      AskedFrom 4 (calls ++ [.lookup [0] 6]) ∧ AskedFrom 4 (calls ++ [.lookup [0] 7]) ∧
      c.foundLater [0] (replyOf .nil) 4 calls 6 = some (replyOf .nil) ∧
      c.foundLater [0] (replyOf .nil) 4 calls 7 = none ∧
      (c.setLifetime 5).foundLater [0] (replyOf .nil) 4 calls 6 = some (replyOf .nil) ∧
      ((c.setLifetime Duration.max).insert [0] (replyOf .nil) 4).1 = true ∧
      (c.setLifetime Duration.max).foundLater [0] (replyOf .nil) 4 calls 6 = none := by
  intro c calls
  have hasked : AskedFrom 4 (calls ++ [.lookup [0] 6]) :=
    ⟨by decide, by decide, by decide, by decide, trivial⟩
  have hasked' : AskedFrom 4 (calls ++ [.lookup [0] 7]) :=
    ⟨by decide, by decide, by decide, by decide, trivial⟩
  have hclock : 4 + c.lifetime < Instant.limit := by decide
  obtain ⟨hfound, -, hlonger⟩ := found_within_lifetime 3 65536 [.insert [1] (replyOf .nil) 0] [0]
    (replyOf .nil) 4 calls 6 (by decide) hasked
  obtain ⟨hfound', -⟩ := found_within_lifetime 3 65536 [.insert [1] (replyOf .nil) 0] [0]
    (replyOf .nil) 4 calls 7 (by decide) hasked'
  obtain ⟨-, hnone, -⟩ := found_within_lifetime 3 65536
    [.insert [1] (replyOf .nil) 0, .setLifetime Duration.max] [0] (replyOf .nil) 4 calls 6
    (by decide) hasked
  have h6 := hfound hclock
  have h7 := hfound' hclock
  exact ⟨by decide, hasked, hasked', h6, h7, hlonger 3 5 (by decide) (by decide) h6, by decide,
    hnone (by decide)⟩

/-- Whether each entry is found until its whole lifetime is over. -/
def LivesFully : Prop :=
  ∀ (lifetime : Duration) (budget : Nat) (past : List CacheCall),
    let c := ((empty lifetime budget).run past).2
    ∀ key r t calls t', (c.insert key r t).1 = true → AskedFrom t (calls ++ [.lookup key t']) →
      c.foundLater key r t calls t' = if t' < t + c.lifetime then some r else none

/-- An entry whose lifetime ends past all times of the clock is stale when it comes in. -/
theorem not_livesFully : ¬LivesFully := by
  intro h
  have hfound := h Duration.max 65536 [] [0] (replyOf .nil) 0 [] 0 (by decide)
    ⟨Nat.le_refl 0, trivial⟩
  exact absurd hfound (by decide)

end Cache

end Treegram
