import Treegram.Proofs.Evictions

/-!
# Caches without a horizon

The horizon of a cache only tells when there is nothing to drop. A cache without one, which goes
through all its entries whenever it is asked for a reply (`ScanningCache`), gives the same answers,
and the same entries stand in it in the same order (`Sound.scanning_run`). So no entry is found that
is stale, and none is missed that is not.
-/

namespace Treegram

/-- A cache that keeps neither a horizon nor a total. -/
structure ScanningCache where
  lifetime : Duration
  budget : Nat
  /-- The entries, the one used last in front. -/
  entries : List CacheEntry
  deriving DecidableEq

namespace ScanningCache

def empty (lifetime : Duration) (budget : Nat) : ScanningCache :=
  ⟨lifetime, budget, []⟩

/-- Without any entry that is stale. -/
def scan (c : ScanningCache) (now : Instant) : ScanningCache :=
  { c with entries := c.entries.filter fun e => now < e.expires }

/-- As many of the entries, from the first of them on, as `limit` has room for. -/
def fitting (limit : Nat) : List CacheEntry → List CacheEntry
  | [] => []
  | e :: es => if e.size ≤ limit then e :: fitting (limit - e.size) es else []

def lookup (c : ScanningCache) (key : Bytes) (now : Instant) : Option Reply × ScanningCache :=
  let c := c.scan now
  match c.entries.find? fun e => e.key == key with
  | some e => (some e.reply, { c with entries := e :: c.entries.filter fun e => e.key ≠ key })
  | none => (none, c)

def contains (c : ScanningCache) (key : Bytes) (now : Instant) : Bool :=
  (c.scan now).entries.any fun e => e.key == key

def insert (c : ScanningCache) (key : Bytes) (reply : Reply) (now : Instant) :
    Bool × ScanningCache :=
  let size := CacheEntry.footprint key reply
  if reply.isContinued ∨ c.budget < size then (false, c)
  else
    let expires := (now.plus? c.lifetime).getD now
    let others := fitting (c.budget - size) (c.entries.filter fun e => e.key ≠ key)
    (true, { c with entries := ⟨key, reply, expires, size⟩ :: others })

def clear (c : ScanningCache) (all : Bool) (now : Instant) : ScanningCache :=
  if all then { c with entries := [] } else c.scan now

def setLifetime (c : ScanningCache) (lifetime : Duration) : ScanningCache :=
  { c with lifetime }

def setBudget (c : ScanningCache) (budget : Nat) : ScanningCache :=
  { c with budget, entries := fitting budget c.entries }

def perform (c : ScanningCache) : CacheCall → CacheAnswer × ScanningCache
  | .insert key reply now =>
    let (kept, c) := c.insert key reply now
    (.stored kept, c)
  | .lookup key now =>
    let (reply, c) := c.lookup key now
    (.found reply, c)
  | .contains key now => (.contained (c.contains key now), c)
  | .clear all now => (.done, c.clear all now)
  | .setLifetime lifetime => (.done, c.setLifetime lifetime)
  | .setBudget budget => (.done, c.setBudget budget)

/-- The answers to the calls, one after the other, and the cache behind them. -/
def run (c : ScanningCache) : List CacheCall → List CacheAnswer × ScanningCache
  | [] => ([], c)
  | call :: calls =>
    let (answer, c) := c.perform call
    let (answers, c) := c.run calls
    (answer :: answers, c)

theorem longest_fitting : ∀ (limit : Nat) (es : List CacheEntry),
    Cache.LongestWithin limit es (fitting limit es)
  | limit, [] => ⟨List.prefix_refl [], Nat.zero_le _, fun _ h _ => h⟩
  | limit, e :: es => by
    have hsize (es : List CacheEntry) : Cache.occupied (e :: es) = e.size + Cache.occupied es := rfl
    rw [fitting]
    split
    · obtain ⟨hfront, hfits, hlongest⟩ := longest_fitting (limit - e.size) es
      refine ⟨(List.prefix_cons_inj e).2 hfront, by rw [hsize]; omega, fun other hother hle => ?_⟩
      rcases other with _ | ⟨e', other⟩
      · exact List.nil_prefix
      · obtain ⟨rfl, hrest⟩ := List.cons_prefix_cons.1 hother
        rw [hsize] at hle
        exact (List.prefix_cons_inj e').2 (hlongest other hrest (by omega))
    · refine ⟨List.nil_prefix, Nat.zero_le _, fun other hother hle => ?_⟩
      rcases other with _ | ⟨e', other⟩
      · exact List.nil_prefix
      · obtain ⟨rfl, -⟩ := List.cons_prefix_cons.1 hother
        rw [hsize] at hle
        omega

end ScanningCache

namespace Cache

/-- The cache without its horizon and its total. -/
def scanning (c : Cache) : ScanningCache :=
  ⟨c.lifetime, c.budget, c.entries⟩

variable {c : Cache}

theorem Tallied.scanning_expireIfDue (h : c.Tallied) (now : Instant) :
    (c.expireIfDue now).scanning = c.scanning.scan now := by
  rw [scanning, h.entries_expireIfDue, lifetime_expireIfDue, (c.budget_expireIfDue now).1]
  rfl

theorem Tallied.scanning_lookup (h : c.Tallied) (key : Bytes) (now : Instant) :
    ((c.lookup key now).1, (c.lookup key now).2.scanning) = c.scanning.lookup key now := by
  have hentries : (c.scanning.scan now).entries = c.entries.filter fun e => now < e.expires := rfl
  rw [h.lookup_eq, ScanningCache.lookup, hentries, ← h.scanning_expireIfDue]
  rcases hf : (c.entries.filter fun e => now < e.expires).find? fun e => e.key == key with _ | e
  · rw [hf]
  · rw [hf]
    rfl

theorem Tallied.scanning_contains (h : c.Tallied) (key : Bytes) (now : Instant) :
    c.contains key now = c.scanning.contains key now := by
  rw [Bool.eq_iff_iff, h.contains_iff, ScanningCache.contains, List.any_eq_true]
  simp only [ScanningCache.scan, scanning, List.mem_filter, decide_eq_true_iff, beq_iff_eq]
  constructor
  · rintro ⟨e, he, hkey, hnow⟩
    exact ⟨e, ⟨he, hnow⟩, hkey⟩
  · rintro ⟨e, ⟨he, hnow⟩, hkey⟩
    exact ⟨e, he, hkey, hnow⟩

theorem settings_insert (c : Cache) (key : Bytes) (r : Reply) (now : Instant) :
    (c.insert key r now).2.lifetime = c.lifetime ∧ (c.insert key r now).2.budget = c.budget := by
  rw [insert_eq]
  split
  · exact ⟨rfl, rfl⟩
  · exact ⟨c.lifetime_without key, c.budget_without key⟩

theorem Tallied.scanning_insert (h : c.Tallied) (key : Bytes) (r : Reply) (now : Instant) :
    ((c.insert key r now).1, (c.insert key r now).2.scanning) = c.scanning.insert key r now := by
  rw [ScanningCache.insert]
  by_cases hr : r.isContinued ∨ c.budget < CacheEntry.footprint key r
  · rw [insert_eq, if_pos hr]
    exact (if_pos hr).symm
  · have hkept : (c.insert key r now).1 = true := by rw [insert_eq, if_neg hr]
    obtain ⟨kept, hentries, hlongest⟩ := h.entries_insert hkept
    obtain ⟨hlifetime, hbudget⟩ := c.settings_insert key r now
    rw [scanning, hkept, hlifetime, hbudget, hentries,
      hlongest.unique (ScanningCache.longest_fitting _ _)]
    exact (if_neg hr).symm

theorem scanning_dropExpired (c : Cache) (now : Instant) :
    (c.dropExpired now).scanning = c.scanning.scan now := by
  rw [scanning, entries_dropExpired]
  rfl

/-- Each call is answered as without a horizon, and leaves the same entries in the same order. -/
theorem Tallied.scanning_perform (h : c.Tallied) (call : CacheCall) :
    ((c.perform call).1, (c.perform call).2.scanning) = c.scanning.perform call := by
  cases call with
  | insert key reply now =>
    rw [ScanningCache.perform, ← h.scanning_insert]
    rfl
  | lookup key now =>
    rw [ScanningCache.perform, ← h.scanning_lookup]
    rfl
  | contains key now =>
    rw [ScanningCache.perform, ← h.scanning_contains]
    rfl
  | clear all now =>
    rcases all with _ | _
    · exact congrArg (Prod.mk CacheAnswer.done) (c.scanning_dropExpired now)
    · rfl
  | setLifetime lifetime => rfl
  | setBudget budget =>
    have hentries := (h.longest_setBudget budget).unique (ScanningCache.longest_fitting _ _)
    simp only [perform, scanning, hentries]
    rfl

theorem Sound.scanning_run : ∀ (calls : List CacheCall) {c : Cache}, c.Sound →
    ((c.run calls).1, (c.run calls).2.scanning) = c.scanning.run calls
  | [], _, _ => rfl
  | call :: calls, c, h => by
    have hcall := h.scanning_perform call
    have hcalls := scanning_run calls (h.perform call)
    rw [ScanningCache.run, ← hcall]
    dsimp only
    rw [← hcalls]
    rfl

/-- Whatever was asked of a cache, at whatever times, the horizon does not show: a look-up comes to
what it comes to without a horizon, and so does the dropping of what is stale. A look-up finds the
entry for its key if and only if that is not stale, as can be told beforehand without any change.
All calls so far were answered as without a horizon and have left the same entries in the same
order, also along the links. -/
theorem horizon_unobservable (lifetime : Duration) (budget : Nat) (calls : List CacheCall) :
    let c := ((empty lifetime budget).run calls).2
    let s := (ScanningCache.empty lifetime budget).run calls
    (∀ key now,
      ((c.lookup key now).1, (c.lookup key now).2.scanning) = c.scanning.lookup key now ∧
      (∀ r, (c.lookup key now).1 = some r ↔
        ∃ e ∈ c.entries, e.key = key ∧ now < e.expires ∧ e.reply = r) ∧
      c.perform (.contains key now) = (.contained (c.lookup key now).1.isSome, c)) ∧
    (∀ now, (c.clear false now).scanning = c.scanning.scan now) ∧
    (((empty lifetime budget).run calls).1, c.scanning) = s ∧ c.total = occupied s.2.entries ∧
    ∃ linked, (LinkedCache.empty lifetime budget).run calls = some (s.1, linked) ∧
      linked.order = some s.2.entries := by
  intro c s
  have hempty := sound_empty lifetime budget
  have h : c.Tallied := (hempty.run calls).toTallied
  have hs : (((empty lifetime budget).run calls).1, c.scanning) = s := hempty.scanning_run calls
  refine ⟨fun key now => ⟨h.scanning_lookup key now, fun r => h.lookup_eq_some_iff, ?_⟩,
    c.scanning_dropExpired, hs, ?_⟩
  · rw [h.isSome_lookup]
    rfl
  · rw [← hs]
    exact ⟨h.total, LinkedCache.order_run lifetime budget calls⟩

end Cache

end Treegram
