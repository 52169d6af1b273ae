import Treegram.Cache.Linked
import Treegram.Proofs.CacheInvariant

/-!
# The links of a cache

A linked cache holds what a cache without links holds, in slots along the chain (`Holds`). To take
an entry out of the chain and to put one in front of it each change what is next to it only
(`Chained.unlink`, `Chained.pushFront`), and each operation is made of these. So it comes to an end
and does what it does without links, where the books are known to be right.

What the links and the books say is told of the slots alone, too (`WellLinked`). It is so behind
whatever is asked of a cache (`run_wellLinked`).
-/

namespace Treegram

/-- Whether two arenas have the same live slots. -/
def Arena.SameLive {α : Type} (a a' : Arena α) : Prop :=
  ∀ k, (a'.get? k).isSome = (a.get? k).isSome

namespace Cache

theorem Sound.perform {c : Cache} (h : c.Sound) (call : CacheCall) : (c.perform call).2.Sound := by
  cases call with
  | insert key reply now => exact h.insert key reply now
  | lookup key now => exact h.lookup key now
  | contains key now => exact h
  | clear all now => exact h.clear all now
  | setLifetime lifetime => exact h.setLifetime lifetime
  | setBudget budget => exact h.setBudget budget

theorem Sound.run : ∀ (calls : List CacheCall) {c : Cache}, c.Sound → (c.run calls).2.Sound
  | [], _, h => h
  | call :: calls, _, h => run calls (h.perform call)

end Cache

namespace LinkedCache

/-- The slots of entries that are given with them. -/
def slots (ps : List (Nat × CacheEntry)) : List Nat :=
  ps.map Prod.fst

@[simp] theorem slots_nil : slots [] = [] :=
  rfl

@[simp] theorem slots_cons (k : Nat) (e : CacheEntry) (ps : List (Nat × CacheEntry)) :
    slots ((k, e) :: ps) = k :: slots ps :=
  rfl

@[simp] theorem slots_append (ps qs : List (Nat × CacheEntry)) :
    slots (ps ++ qs) = slots ps ++ slots qs :=
  List.map_append

/-- Whether the entries are linked in this order, the first of them to `previous` and the last of
them to `next`. -/
def Strung (a : Arena LinkedEntry) (previous next : Option Nat) : List (Nat × CacheEntry) → Prop
  | [] => True
  | (k, e) :: ps =>
    a.get? k = some ⟨e, previous, (slots ps).head?.or next⟩ ∧ Strung a (some k) next ps

section Strung

variable {a a' : Arena LinkedEntry} {previous next : Option Nat} {ps qs : List (Nat × CacheEntry)}

theorem strung_append : ∀ {ps : List (Nat × CacheEntry)} {previous : Option Nat},
    Strung a previous next (ps ++ qs) ↔ Strung a previous ((slots qs).head?.or next) ps ∧
      Strung a ((slots ps).getLast?.or previous) next qs
  | [], previous => by simp [Strung]
  | (k, e) :: ps, previous => by
    rw [List.cons_append, Strung, Strung, strung_append, and_assoc, slots_append, List.head?_append,
      Option.or_assoc, slots_cons, List.getLast?_cons, Option.some_or]
    cases (slots ps).getLast? <;> rfl

/-- What is in other slots does not matter. -/
theorem Strung.congr (h : ∀ k ∈ slots ps, a'.get? k = a.get? k) :
    Strung a previous next ps → Strung a' previous next ps := by
  induction ps generalizing previous with
  | nil => exact id
  | cons p ps ih =>
    rw [slots_cons, List.forall_mem_cons] at h
    rintro ⟨hk, hs⟩
    exact ⟨h.1.trans hk, ih h.2 hs⟩

end Strung

variable {c : LinkedCache} {ps qs : List (Nat × CacheEntry)} {k : Nat} {e : CacheEntry}

theorem modify?_of_get? {x : LinkedEntry} (h : c.entries.get? k = some x)
    (f : LinkedEntry → LinkedEntry) :
    ∃ a, c.modify? k f = some { c with entries := a } ∧ c.entries.SameLive a ∧
      ∀ j, a.get? j = if j = k then some (f x) else c.entries.get? j := by
  obtain ⟨a, ha, -, hget⟩ := Arena.modify?_of_get? h f
  refine ⟨a, by rw [modify?, ha]; rfl, fun j => ?_, hget⟩
  rw [hget]
  split
  · rename_i hj
    rw [hj, h]
    rfl
  · rfl

/-- The last of the entries in front gets another one behind it. -/
theorem setNext_spec {n : Option Nat} (hs : Strung c.entries none n ps) (hd : (slots ps).Nodup)
    (hh : c.head = (slots ps).head?.or n) (next : Option Nat) :
    ∃ a, c.setNext (slots ps).getLast? next =
        some { c with entries := a, head := (slots ps).head?.or next } ∧
      Strung a none next ps ∧ c.entries.SameLive a ∧
      ∀ j ∉ slots ps, a.get? j = c.entries.get? j := by
  rcases List.eq_nil_or_concat ps with rfl | ⟨front, ⟨p, e'⟩, rfl⟩
  · exact ⟨c.entries, rfl, trivial, fun _ => rfl, fun _ _ => rfl⟩
  · rw [List.concat_eq_append] at hs hd hh ⊢
    obtain ⟨hfront, hp, -⟩ := strung_append.1 hs
    obtain ⟨a, ha, hlive, hget⟩ := modify?_of_get? hp fun e' => { e' with next := next }
    rw [slots_append, slots_cons, slots_nil] at hd hh ⊢
    have hnot : p ∉ slots front := fun hm =>
      (List.disjoint_of_nodup_append hd) hm List.mem_cons_self
    have hhead : (slots front ++ [p]).head?.or next = c.head := by
      rw [hh]
      cases slots front <;> rfl
    refine ⟨a, ?_, strung_append.2 ⟨hfront.congr fun j hj => ?_, ?_, trivial⟩, hlive, fun j hj => ?_⟩
    · rw [List.getLast?_concat, hhead]
      exact ha
    · rw [hget, if_neg]
      rintro rfl
      exact hnot hj
    · rw [hget, if_pos rfl]
      rfl
    · rw [hget, if_neg]
      rintro rfl
      simp at hj

/-- The first of the entries behind gets another one in front of it. -/
theorem setPrevious_spec {p : Option Nat} (hs : Strung c.entries p none qs)
    (hd : (slots qs).Nodup) (ht : c.tail = (slots qs).getLast?.or p) (previous : Option Nat) :
    ∃ a, c.setPrevious (slots qs).head? previous =
        some { c with entries := a, tail := (slots qs).getLast?.or previous } ∧
      Strung a previous none qs ∧ c.entries.SameLive a ∧
      ∀ j ∉ slots qs, a.get? j = c.entries.get? j := by
  rcases qs with _ | ⟨⟨n, e'⟩, back⟩
  · exact ⟨c.entries, rfl, trivial, fun _ => rfl, fun _ _ => rfl⟩
  · obtain ⟨hn, hback⟩ := hs
    obtain ⟨a, ha, hlive, hget⟩ := modify?_of_get? hn fun e' => { e' with previous := previous }
    rw [slots_cons] at hd ht ⊢
    have hnot : n ∉ slots back := (List.nodup_cons.1 hd).1
    have htail : (n :: slots back).getLast?.or previous = c.tail := by
      rw [ht, List.getLast?_cons]
      rfl
    refine ⟨a, ?_, ⟨?_, hback.congr fun j hj => ?_⟩, hlive, fun j hj => ?_⟩
    · rw [htail]
      exact ha
    · rw [hget, if_pos rfl]
    · rw [hget, if_neg]
      rintro rfl
      exact hnot hj
    · rw [hget, if_neg]
      rintro rfl
      simp at hj

/-- Whether the entries are linked in this order from the head to the tail. -/
structure Chained (c : LinkedCache) (ps : List (Nat × CacheEntry)) : Prop where
  strung : Strung c.entries none none ps
  head : c.head = (slots ps).head?
  tail : c.tail = (slots ps).getLast?
  nodup : (slots ps).Nodup

/-- Whether two caches differ in their links only. -/
structure Relinked (c c' : LinkedCache) : Prop where
  lifetime : c'.lifetime = c.lifetime
  budget : c'.budget = c.budget
  total : c'.total = c.total
  horizon : c'.horizon = c.horizon
  live : c.entries.SameLive c'.entries

theorem Relinked.trans {c c' c'' : LinkedCache} (h : c.Relinked c') (h' : c'.Relinked c'') :
    c.Relinked c'' where
  lifetime := h'.lifetime.trans h.lifetime
  budget := h'.budget.trans h.budget
  total := h'.total.trans h.total
  horizon := h'.horizon.trans h.horizon
  live k := (h'.live k).trans (h.live k)

/-- An entry is taken out of the chain. -/
theorem Chained.unlink (h : c.Chained (ps ++ (k, e) :: qs)) :
    ∃ c', c.unlink k = some c' ∧ c'.Chained (ps ++ qs) ∧
      c'.entries.get? k = some ⟨e, none, none⟩ ∧ c.Relinked c' := by
  have hd := h.nodup
  rw [slots_append, slots_cons, List.nodup_middle, List.nodup_cons, List.mem_append, not_or,
    List.nodup_append] at hd
  obtain ⟨⟨hkps, hkqs⟩, hdps, hdqs, hdisj⟩ := hd
  obtain ⟨hps, hk, hqs⟩ := strung_append.1 h.strung
  have hhead := h.head
  have htail := h.tail
  simp only [slots_append, slots_cons, List.head?_append, List.head?_cons, List.getLast?_append,
    List.getLast?_cons, Option.some_or, Option.or_none] at hps hk hqs hhead htail
  obtain ⟨a₁, ha₁, hs₁, hlive₁, hget₁⟩ := setNext_spec hps hdps hhead (slots qs).head?
  let c₁ : LinkedCache := { c with entries := a₁, head := (slots ps).head?.or (slots qs).head? }
  have hqs₁ : Strung c₁.entries (some k) none qs :=
    hqs.congr fun j hj => hget₁ j fun hm => hdisj j hm j hj rfl
  have htail₁ : c₁.tail = (slots qs).getLast?.or (some k) := by
    rw [show c₁.tail = c.tail from rfl, htail]
    cases (slots qs).getLast? <;> rfl
  obtain ⟨a₂, ha₂, hs₂, hlive₂, hget₂⟩ := setPrevious_spec hqs₁ hdqs htail₁ (slots ps).getLast?
  have hk₂ : a₂.get? k = some ⟨e, (slots ps).getLast?, (slots qs).head?⟩ := by
    rw [hget₂ k hkqs, hget₁ k hkps, hk]
  let c₂ : LinkedCache := { c₁ with
    entries := a₂, tail := (slots qs).getLast?.or (slots ps).getLast? }
  obtain ⟨a₃, ha₃, hlive₃, hget₃⟩ :=
    modify?_of_get? (c := c₂) hk₂ fun e' => { e' with previous := none, next := none }
  have hother : ∀ j, j ≠ k → a₃.get? j = a₂.get? j := fun j hj => by rw [hget₃, if_neg hj]
  refine ⟨{ c₂ with entries := a₃ }, ?_, ⟨strung_append.2 ⟨?_, ?_⟩, ?_, ?_, ?_⟩,
    by rw [hget₃, if_pos rfl], rfl, rfl, rfl, rfl, fun j => ?_⟩
  · unfold LinkedCache.unlink
    rw [hk]
    simp only [Option.bind_eq_bind, Option.bind_some, ha₁]
    rw [ha₂, Option.bind_some]
    exact ha₃
  · rw [Option.or_none]
    refine hs₁.congr fun j hj => ?_
    rw [hother j (fun hjk => hkps (hjk ▸ hj)), hget₂ j fun hm => hdisj j hj j hm rfl]
  · rw [Option.or_none]
    exact hs₂.congr fun j hj => hother j fun hjk => hkqs (hjk ▸ hj)
  · rw [slots_append, List.head?_append]
  · rw [slots_append, List.getLast?_append]
  · rw [slots_append]
    exact List.nodup_append.2 ⟨hdps, hdqs, hdisj⟩
  · rw [hlive₃, hlive₂, hlive₁]

/-- An entry that stands beside the chain is put in front. -/
theorem Chained.pushFront {p n : Option Nat} (h : c.Chained ps)
    (hk : c.entries.get? k = some ⟨e, p, n⟩) (hkps : k ∉ slots ps) :
    ∃ c', c.pushFront k = some c' ∧ c'.Chained ((k, e) :: ps) ∧ c.Relinked c' := by
  obtain ⟨a₁, ha₁, hlive₁, hget₁⟩ :=
    modify?_of_get? hk fun e' => { e' with previous := none, next := c.head }
  let c₁ : LinkedCache := { c with entries := a₁ }
  have hs₁ : Strung c₁.entries none none ps := h.strung.congr fun j hj => by
    rw [hget₁, if_neg]
    rintro rfl
    exact hkps hj
  have hk₁ : a₁.get? k = some ⟨e, none, (slots ps).head?⟩ := by
    rw [hget₁, if_pos rfl, ← h.head]
  unfold LinkedCache.pushFront
  simp only [Option.bind_eq_bind, ha₁, Option.bind_some]
  rcases ps with _ | ⟨⟨n', e'⟩, back⟩
  · have hhead : c.head = none := h.head
    have htail : c.tail = none := h.tail
    simp only [hhead, htail, Option.isSome_none, Option.isNone_none, Bool.false_eq_true, if_true,
      if_false]
    exact ⟨_, rfl, ⟨⟨hk₁, trivial⟩, rfl, rfl, List.nodup_singleton k⟩, rfl, rfl, rfl, rfl, hlive₁⟩
  · have htail₁ : c₁.tail = (slots ((n', e') :: back)).getLast?.or none := by
      rw [Option.or_none, ← h.tail]
    obtain ⟨a₂, ha₂, hs₂, hlive₂, hget₂⟩ := setPrevious_spec hs₁ h.nodup htail₁ (some k)
    have hhead : (slots ((n', e') :: back)).head? = c.head := h.head.symm
    have hsome : c.head.isSome = true := by rw [h.head]; rfl
    rw [hhead] at ha₂
    rw [if_pos hsome, ha₂, Option.bind_some]
    refine ⟨_, rfl, ⟨⟨?_, hs₂⟩, rfl, ?_, List.nodup_cons.2 ⟨hkps, h.nodup⟩⟩, rfl, rfl, rfl, rfl,
      fun j => (hlive₂ j).trans (hlive₁ j)⟩
    · rw [Option.or_none, hget₂ k hkps, hk₁]
    · simp [List.getLast?_cons]

/-! ## The cache behind the links -/

/-- Whether the linked cache holds what `m` holds, the entries in the slots given with them. -/
structure Holds (c : LinkedCache) (m : Cache) (ps : List (Nat × CacheEntry)) : Prop where
  chained : c.Chained ps
  live : ∀ k, k ∈ slots ps ↔ (c.entries.get? k).isSome
  entries : m.entries = ps.map Prod.snd
  lifetime : m.lifetime = c.lifetime
  budget : m.budget = c.budget
  total : m.total = c.total
  horizon : m.horizon = c.horizon

variable {m : Cache}

theorem Holds.count (h : c.Holds m ps) : c.entries.count = m.entries.length := by
  rw [Arena.count_eq h.chained.nodup h.live, h.entries, slots, List.length_map, List.length_map]

theorem Holds.drop (h : c.Holds m (ps ++ (k, e) :: qs)) (hm : m.Tallied) :
    ∃ c', c.drop k = some c' ∧ c'.Holds (m.drop e) (ps ++ qs) := by
  obtain ⟨c₁, hc₁, hch, hk, hr⟩ := h.chained.unlink
  obtain ⟨a, ha, -, hget⟩ := Arena.remove?_of_get? hk
  have hentries : m.entries = ps.map Prod.snd ++ e :: qs.map Prod.snd := by
    rw [h.entries, List.map_append, List.map_cons]
  have hkeys := hm.keys
  rw [hentries] at hkeys
  have hdrop : (m.drop e).entries = (ps ++ qs).map Prod.snd := by
    simp only [Cache.drop, hentries, Cache.eraseP_key hkeys, List.map_append]
  -- what is taken off the total is on it, being a part of the sum
  have hle : e.size ≤ c₁.total := by
    rw [hr.total, ← h.total, hm.total, hentries, Cache.occupied_append]
    show e.size ≤ _ + (e.size + _)
    omega
  have hnot : k ∉ slots (ps ++ qs) := by
    have hd := h.chained.nodup
    rw [slots_append, slots_cons, List.nodup_middle, List.nodup_cons, ← slots_append] at hd
    exact hd.1
  have hlive : ∀ j, j ∈ slots (ps ++ qs) ↔ (a.get? j).isSome := by
    intro j
    have hj := h.live j
    rw [← hr.live, slots_append, slots_cons, List.mem_append, List.mem_cons] at hj
    rw [hget]
    by_cases hjk : j = k
    · subst hjk
      simpa using hnot
    · rw [if_neg hjk, ← hj, slots_append, List.mem_append]
      simp [hjk]
  refine ⟨{ c₁ with
      entries := a
      total := c₁.total - e.size
      horizon := if a.count = 0 then none else c₁.horizon }, ?_, ?_⟩
  · unfold LinkedCache.drop
    rw [hc₁]
    simp only [Option.bind_eq_bind, Option.bind_some, ha, hle, if_true]
  · have hcount : a.count = 0 ↔ (m.drop e).entries.isEmpty := by
      rw [Arena.count_eq hch.nodup hlive, hdrop, slots, List.length_map, List.isEmpty_iff,
        List.map_eq_nil_iff, List.length_eq_zero_iff]
    refine ⟨⟨hch.strung.congr fun j hj => ?_, hch.head, hch.tail, hch.nodup⟩, hlive, hdrop,
      h.lifetime.trans hr.lifetime.symm, h.budget.trans hr.budget.symm, ?_, ?_⟩
    · rw [hget, if_neg]
      rintro rfl
      exact hnot hj
    · show m.total - e.size = c₁.total - e.size
      rw [h.total, hr.total]
    · show (if (m.drop e).entries.isEmpty then none else m.horizon) =
        if a.count = 0 then none else c₁.horizon
      rw [h.horizon, hr.horizon]
      simp only [hcount]

/-- The walk along the links comes upon the first entry that is kept for the key. -/
theorem findFrom_spec (key : Bytes) : ∀ {qs : List (Nat × CacheEntry)} {previous : Option Nat},
    Strung c.entries previous none qs →
      (c.findFrom key (slots qs).head? = some none ∧ ∀ p ∈ qs, p.2.key ≠ key) ∨
        ∃ front k e back, qs = front ++ (k, e) :: back ∧ e.key = key ∧
          c.findFrom key (slots qs).head? = some (some k)
  | [], _, _ => by
    refine Or.inl ⟨?_, by simp⟩
    rw [slots_nil, List.head?_nil, LinkedCache.findFrom]
  | (k, e) :: qs, previous, ⟨hk, hs⟩ => by
    rw [slots_cons, List.head?_cons, LinkedCache.findFrom, hk]
    simp only [Option.bind_eq_bind, Option.bind_some, Option.or_none]
    by_cases hkey : e.key = key
    · rw [if_pos hkey]
      exact Or.inr ⟨[], k, e, qs, rfl, hkey, rfl⟩
    · rw [if_neg hkey]
      rcases findFrom_spec key hs with ⟨hf, hne⟩ | ⟨front, k', e', back, rfl, hkey', hf⟩
      · exact Or.inl ⟨hf, List.forall_mem_cons.2 ⟨hkey, hne⟩⟩
      · exact Or.inr ⟨(k, e) :: front, k', e', back, rfl, hkey', hf⟩

theorem Holds.find (h : c.Holds m ps) (hm : m.Tallied) (key : Bytes) :
    (c.find key = some none ∧ m.find? key = none) ∨
      ∃ front k e back, ps = front ++ (k, e) :: back ∧ c.find key = some (some k) ∧
        m.find? key = some e := by
  unfold LinkedCache.find
  rw [h.chained.head]
  rcases findFrom_spec key h.chained.strung with ⟨hf, hne⟩ | ⟨front, k, e, back, rfl, hkey, hf⟩
  · refine Or.inl ⟨hf, Option.eq_none_iff_forall_ne_some.2 fun e he => ?_⟩
    obtain ⟨hmem, hkey⟩ := hm.find?_eq_some_iff.1 he
    rw [h.entries] at hmem
    obtain ⟨p, hp, rfl⟩ := List.mem_map.1 hmem
    exact hne p hp hkey
  · refine Or.inr ⟨front, k, e, back, rfl, hf, hm.find?_eq_some_iff.2 ⟨?_, hkey⟩⟩
    rw [h.entries, List.map_append]
    exact List.mem_append_right _ List.mem_cons_self

/-! ## Evictions -/

/-- Entries are dropped at the end as long as there is too much on the total. -/
theorem Holds.dropWhile (limit : Nat) : ∀ (n : Nat) {c : LinkedCache} {m : Cache}
    {ps : List (Nat × CacheEntry)}, ps.length = n → c.Holds m ps → m.Tallied →
      ∃ c' ps', c.dropWhile (fun total => limit < total) = some c' ∧ c'.Holds (m.shrink limit) ps'
  | n, c, m, ps, hn, h, hm => by
    rw [LinkedCache.dropWhile, ← h.total]
    simp only [decide_eq_true_eq]
    split
    · rename_i hlt
      rcases List.eq_nil_or_concat ps with rfl | ⟨front, ⟨k, e⟩, rfl⟩
      · -- with no entries there is nothing on the total
        have hzero : m.total = 0 := by rw [hm.total, h.entries]; rfl
        omega
      · rw [List.concat_eq_append] at h hn
        have htail : c.tail = some k := by
          rw [h.chained.tail, slots_append]
          exact List.getLast?_concat
        have hentries : m.entries = front.map Prod.snd ++ [e] := by
          rw [h.entries, List.map_append]
          rfl
        obtain ⟨c₁, hc₁, h₁⟩ := h.drop hm
        rw [List.append_nil] at h₁
        have hmem : e ∈ m.entries := by
          rw [hentries]
          exact List.mem_append_right _ List.mem_cons_self
        have hlen : front.length < n := by
          rw [← hn, List.length_append]
          exact Nat.lt_succ_self _
        obtain ⟨c₂, ps₂, hc₂, h₂⟩ := Holds.dropWhile limit front.length rfl h₁ (hm.drop hmem)
        rw [hm.shrink_of_lt hlt hentries, htail]
        simp only [Option.bind_eq_bind, hc₁, Option.bind_some]
        exact ⟨c₂, ps₂, hc₂, h₂⟩
    · rename_i hlt
      rw [hm.shrink_of_le (Nat.le_of_not_lt hlt)]
      exact ⟨c, ps, rfl, h⟩

/-! ## Stale entries -/

/-- The earlier of a time and the one found so far. -/
def earlier (first : Option Instant) (t : Instant) : Option Instant :=
  some ((first.map (min t)).getD t)

theorem foldl_earlier (ts : List Instant) : ts.foldl earlier none = ts.min? := by
  have hsome : ∀ (ts : List Instant) (t : Instant),
      ts.foldl earlier (some t) = some (ts.foldl min t) := by
    intro ts
    induction ts with
    | nil => exact fun _ => rfl
    | cons t' ts ih =>
      intro t
      rw [List.foldl_cons, List.foldl_cons, earlier, Option.map_some, Option.getD_some, ih,
        Nat.min_comm]
  rcases ts with _ | ⟨t, ts⟩
  · rfl
  · rw [List.foldl_cons, List.min?_cons', earlier, hsome]
    rfl

/-- Those of the entries that are not stale. -/
def fresh (now : Instant) (ps : List (Nat × CacheEntry)) : List (Nat × CacheEntry) :=
  ps.filter fun p => now < p.2.expires

/-- The walk along the links drops the stale entries and finds the first time at which one of the
others expires. -/
theorem Holds.dropExpiredFrom (now : Instant) : ∀ {qs ps : List (Nat × CacheEntry)}
    {c : LinkedCache} {m : Cache} (first : Option Instant), c.Holds m (ps ++ qs) → m.Tallied →
      ∃ (c' : LinkedCache) (m' : Cache),
        c.dropExpiredFrom now first (slots qs).head? = some { c' with
          horizon := ((fresh now qs).map fun p => p.2.expires).foldl earlier first } ∧
        c'.Holds m' (ps ++ fresh now qs) ∧ m'.Tallied ∧ m'.lifetime = m.lifetime ∧
        m'.budget = m.budget
  | [], ps, c, m, first, h, hm => by
    rw [slots_nil, List.head?_nil, LinkedCache.dropExpiredFrom]
    exact ⟨c, m, rfl, h, hm, rfl, rfl⟩
  | (k, e) :: qs, ps, c, m, first, h, hm => by
    obtain ⟨-, hk, -⟩ := strung_append.1 h.chained.strung
    rw [slots_cons, List.head?_cons, LinkedCache.dropExpiredFrom, hk]
    simp only [Option.bind_eq_bind, Option.bind_some, Option.or_none]
    by_cases hnow : e.expires ≤ now
    · have hmem : e ∈ m.entries := by
        rw [h.entries, List.map_append]
        exact List.mem_append_right _ List.mem_cons_self
      obtain ⟨c₁, hc₁, h₁⟩ := h.drop hm
      obtain ⟨c', m', hc', h', hm', hl, hb⟩ := Holds.dropExpiredFrom now first h₁ (hm.drop hmem)
      have hfresh : fresh now ((k, e) :: qs) = fresh now qs :=
        List.filter_cons_of_neg (by simpa using hnow)
      rw [if_pos hnow, hc₁, Option.bind_some, hfresh]
      exact ⟨c', m', hc', h', hm', hl, hb⟩
    · rw [List.append_cons] at h
      obtain ⟨c', m', hc', h', hm', hl, hb⟩ :=
        Holds.dropExpiredFrom now (earlier first e.expires) h hm
      have hfresh : fresh now ((k, e) :: qs) = (k, e) :: fresh now qs :=
        List.filter_cons_of_pos (by simpa using hnow)
      rw [if_neg hnow, hfresh, List.map_cons, List.foldl_cons]
      rw [List.append_assoc, List.singleton_append] at h'
      exact ⟨c', m', hc', h', hm', hl, hb⟩

theorem Holds.dropExpired (h : c.Holds m ps) (hm : m.Tallied) (now : Instant) :
    ∃ c' ps', c.dropExpired now = some c' ∧ c'.Holds (m.dropExpired now) ps' := by
  have hnil : c.Holds m ([] ++ ps) := h
  obtain ⟨c', m', hc', h', hm', hl, hb⟩ := Holds.dropExpiredFrom now none hnil hm
  rw [List.nil_append] at h'
  have hentries : (m.dropExpired now).entries = (fresh now ps).map Prod.snd := by
    rw [Cache.entries_dropExpired, h.entries, List.filter_map]
    rfl
  have hsame : (m.dropExpired now).entries = m'.entries := hentries.trans h'.entries.symm
  unfold LinkedCache.dropExpired
  rw [h.chained.head]
  refine ⟨_, _, hc', ⟨⟨h'.chained.strung, h'.chained.head, h'.chained.tail, h'.chained.nodup⟩,
    h'.live, hentries, hl.symm.trans h'.lifetime, hb.symm.trans h'.budget, ?_, ?_⟩⟩
  · rw [(hm.dropExpired now).total, hsame, ← hm'.total, h'.total]
  · rw [foldl_earlier]
    show Cache.firstExpiry (m.dropExpired now).entries = _
    rw [hentries, Cache.firstExpiry, List.map_map]
    rfl

theorem Holds.expireIfDue (h : c.Holds m ps) (hm : m.Tallied) (now : Instant) :
    ∃ c' ps', c.expireIfDue now = some c' ∧ c'.Holds (m.expireIfDue now) ps' := by
  unfold LinkedCache.expireIfDue Cache.expireIfDue
  rw [h.horizon]
  rcases c.horizon with _ | t
  · exact ⟨c, ps, rfl, h⟩
  · dsimp only
    split
    · exact h.dropExpired hm now
    · exact ⟨c, ps, rfl, h⟩

/-! ## Operations -/

/-- The entry of a slot moves to the front. -/
theorem Holds.moveToFront (h : c.Holds m (ps ++ (k, e) :: qs)) (hm : m.Tallied) :
    ∃ c', c.moveToFront k = some c' ∧
      c'.Holds { m with entries := e :: m.entries.eraseP fun e' => e'.key == e.key }
        ((k, e) :: (ps ++ qs)) := by
  have hkeys := hm.keys
  rw [h.entries, List.map_append, List.map_cons] at hkeys
  have hentries : m.entries.eraseP (fun e' => e'.key == e.key) = (ps ++ qs).map Prod.snd := by
    rw [h.entries, List.map_append, List.map_cons, Cache.eraseP_key hkeys, List.map_append]
  have hd := h.chained.nodup
  rw [slots_append, slots_cons, List.nodup_middle, List.nodup_cons] at hd
  unfold LinkedCache.moveToFront
  by_cases hhead : c.head = some k
  · rw [if_pos hhead]
    -- the entry at the head has none in front of it and stays where it is
    have hnil : ps = [] := by
      rcases ps with _ | ⟨⟨k', e'⟩, ps⟩
      · rfl
      · have := h.chained.head
        rw [hhead] at this
        simp at this hd
        exact absurd this hd.1.1
    subst hnil
    exact ⟨c, rfl, h.chained, h.live, by rw [hentries]; rfl, h.lifetime, h.budget, h.total,
      h.horizon⟩
  · rw [if_neg hhead]
    obtain ⟨c₁, hc₁, hch₁, hk₁, hr₁⟩ := h.chained.unlink
    obtain ⟨c₂, hc₂, hch₂, hr₂⟩ := hch₁.pushFront hk₁ (by rw [slots_append]; exact hd.1)
    have hr := hr₁.trans hr₂
    refine ⟨c₂, ?_, hch₂, fun j => ?_, by rw [hentries]; rfl, h.lifetime.trans hr.lifetime.symm,
      h.budget.trans hr.budget.symm, h.total.trans hr.total.symm, h.horizon.trans hr.horizon.symm⟩
    · simp only [Option.bind_eq_bind, hc₁, Option.bind_some]
      exact hc₂
    · rw [hr.live, ← h.live]
      simp only [slots_append, slots_cons, List.mem_cons, List.mem_append]
      tauto

theorem Holds.lookup (h : c.Holds m ps) (hm : m.Tallied) (key : Bytes) (now : Instant) :
    ∃ c' ps', c.lookup key now = some ((m.lookup key now).1, c') ∧
      c'.Holds (m.lookup key now).2 ps' := by
  obtain ⟨c₁, ps₁, hc₁, h₁⟩ := h.expireIfDue hm now
  have hm₁ := hm.expireIfDue now
  unfold LinkedCache.lookup Cache.lookup
  simp only [Option.bind_eq_bind, hc₁, Option.bind_some]
  rcases h₁.find hm₁ key with ⟨hf, hn⟩ | ⟨front, k, e, back, rfl, hf, hs⟩
  · rw [hf, hn]
    exact ⟨c₁, ps₁, rfl, h₁⟩
  · obtain ⟨-, rfl⟩ := hm₁.find?_eq_some_iff.1 hs
    obtain ⟨c₂, hc₂, h₂⟩ := h₁.moveToFront hm₁
    obtain ⟨hk, -⟩ := h₂.chained.strung
    rw [hf, hs]
    simp only [Option.bind_some, hc₂, hk]
    exact ⟨c₂, _, rfl, h₂⟩

theorem Holds.contains (h : c.Holds m ps) (hm : m.Tallied) (key : Bytes) (now : Instant) :
    c.contains key now = some (m.contains key now) := by
  unfold LinkedCache.contains Cache.contains
  rcases h.find hm key with ⟨hf, hn⟩ | ⟨front, k, e, back, rfl, hf, hs⟩
  · rw [hn]
    simp only [Option.bind_eq_bind, hf, Option.bind_some]
    rfl
  · obtain ⟨-, hk, -⟩ := strung_append.1 h.chained.strung
    rw [hs]
    simp only [Option.bind_eq_bind, hf, Option.bind_some, hk]
    rfl

theorem Holds.clear (h : c.Holds m ps) (hm : m.Tallied) (all : Bool) (now : Instant) :
    ∃ c' ps', c.clear all now = some c' ∧ c'.Holds (m.clear all now) ps' := by
  unfold LinkedCache.clear Cache.clear
  cases all
  · exact h.dropExpired hm now
  · exact ⟨_, [], rfl, ⟨trivial, rfl, rfl, List.nodup_nil⟩, by simp, rfl, h.lifetime, h.budget, rfl,
      rfl⟩

theorem Holds.setBudget (h : c.Holds m ps) (hm : m.Tallied) (budget : Nat) :
    ∃ c' ps', c.setBudget budget = some c' ∧ c'.Holds (m.setBudget budget) ps' := by
  have hc : { c with budget }.Holds { m with budget } ps :=
    ⟨⟨h.chained.strung, h.chained.head, h.chained.tail, h.chained.nodup⟩, h.live, h.entries,
      h.lifetime, rfl, h.total, h.horizon⟩
  exact hc.dropWhile budget _ rfl { hm with }

theorem Holds.setLifetime (h : c.Holds m ps) (lifetime : Duration) :
    (c.setLifetime lifetime).Holds (m.setLifetime lifetime) ps :=
  ⟨⟨h.chained.strung, h.chained.head, h.chained.tail, h.chained.nodup⟩, h.live, h.entries,
    rfl, h.budget, h.total, h.horizon⟩

theorem Holds.without (h : c.Holds m ps) (hm : m.Tallied) (key : Bytes) :
    ∃ c' ps', c.without key = some c' ∧ c'.Holds (m.without key) ps' := by
  unfold LinkedCache.without Cache.without
  rcases h.find hm key with ⟨hf, hn⟩ | ⟨front, k, e, back, rfl, hf, hs⟩
  · rw [hf, hn]
    exact ⟨c, ps, rfl, h⟩
  · rw [hf, hs]
    obtain ⟨c', hc', h'⟩ := h.drop hm
    exact ⟨c', _, hc', h'⟩

/-- A new entry goes to the front. -/
theorem Holds.adding (h : c.Holds m ps) (e : CacheEntry) :
    ∃ c', { c with entries := c.entries.insert ⟨e, none, none⟩ }.pushFront c.entries.next = some c' ∧
      { c' with
        total := c'.total + e.size
        horizon := some ((c'.horizon.map (min e.expires)).getD e.expires) }.Holds (m.adding e)
        ((c.entries.next, e) :: ps) := by
  have hnot : c.entries.next ∉ slots ps := fun hm => by
    have := (h.live _).1 hm
    simp at this
  let c₁ : LinkedCache := { c with entries := c.entries.insert ⟨e, none, none⟩ }
  have hch₁ : c₁.Chained ps := by
    refine ⟨h.chained.strung.congr fun j hj => ?_, h.chained.head, h.chained.tail, h.chained.nodup⟩
    rw [Arena.get?_insert, if_neg]
    rintro rfl
    exact hnot hj
  have hk₁ : c₁.entries.get? c.entries.next = some ⟨e, none, none⟩ := by
    rw [Arena.get?_insert, if_pos rfl]
  obtain ⟨c', hc', hch', hr⟩ := hch₁.pushFront hk₁ hnot
  refine ⟨c', hc', ⟨hch'.strung, hch'.head, hch'.tail, hch'.nodup⟩, fun j => ?_, ?_,
    h.lifetime.trans hr.lifetime.symm, h.budget.trans hr.budget.symm, ?_, ?_⟩
  · rw [hr.live, Arena.get?_insert, slots_cons, List.mem_cons, h.live]
    split <;> simp_all
  · rw [List.map_cons, ← h.entries]
    rfl
  · show m.total + e.size = c'.total + e.size
    rw [h.total, hr.total]
  · show some ((m.horizon.map _).getD _) = some ((c'.horizon.map _).getD _)
    rw [h.horizon, hr.horizon]

theorem Holds.insert (h : c.Holds m ps) (hm : m.Tallied) (key : Bytes) (r : Reply)
    (now : Instant) :
    ∃ c' ps', c.insert key r now = some ((m.insert key r now).1, c') ∧
      c'.Holds (m.insert key r now).2 ps' := by
  rw [Cache.insert_eq]
  unfold LinkedCache.insert
  dsimp only
  by_cases hr : r.isContinued = true
  · rw [if_pos hr, if_pos (Or.inl hr)]
    exact ⟨c, ps, rfl, h⟩
  · rw [if_neg hr, h.budget]
    by_cases hb : c.budget < CacheEntry.footprint key r
    · rw [if_pos hb, if_pos (Or.inr hb)]
      exact ⟨c, ps, rfl, h⟩
    · rw [if_neg hb, if_neg (not_or.2 ⟨hr, hb⟩)]
      obtain ⟨c₁, ps₁, hc₁, h₁⟩ := h.without hm key
      obtain ⟨hm₁, -⟩ := hm.without key
      have hbudget : c₁.budget = c.budget := by
        rw [← h₁.budget, Cache.budget_without, h.budget]
      -- too little is left of the budget if and only if too much is on the total
      have hover : (fun total => decide (c₁.budget - total < CacheEntry.footprint key r)) =
          fun total => decide (c.budget - CacheEntry.footprint key r < total) := by
        have := CacheEntry.footprint_pos key r
        funext total
        rw [hbudget]
        exact decide_eq_decide.2 (by omega)
      obtain ⟨c₂, ps₂, hc₂, h₂⟩ :=
        Holds.dropWhile (c.budget - CacheEntry.footprint key r) _ rfl h₁ hm₁
      have hexpires : (now.plus? c₂.lifetime).getD now = m.expiry now := by
        rw [← h₂.lifetime]
        show (now.plus? (m.without key).lifetime).getD now = _
        rw [Cache.lifetime_without]
        rfl
      obtain ⟨c₃, hc₃, h₃⟩ := h₂.adding ⟨key, r, m.expiry now, CacheEntry.footprint key r⟩
      refine ⟨_, _, ?_, h₃⟩
      simp only [Option.bind_eq_bind, hc₁, Option.bind_some, hover, hc₂, hexpires, hc₃]
      rfl

/-! ## What the links say -/

def nextOf (c : LinkedCache) (k : Nat) : Option (Option Nat) :=
  (c.entries.get? k).map LinkedEntry.next

def previousOf (c : LinkedCache) (k : Nat) : Option (Option Nat) :=
  (c.entries.get? k).map LinkedEntry.previous

/-- Whether the links and the books of the cache are right. -/
structure WellLinked (c : LinkedCache) : Prop where
  /-- The walk from the head visits every entry once and ends at the tail, and the walk from the
  tail visits them the other way round. -/
  linked : ∃ ks : List Nat, ks.Nodup ∧ (∀ k, k ∈ ks ↔ (c.entries.get? k).isSome) ∧
    Visits c.nextOf c.head ks ∧ ks.getLast? = c.tail ∧ Visits c.previousOf c.tail ks.reverse
  keys : ∀ k k' e e', c.entries.get? k = some e → c.entries.get? k' = some e' → e.key = e'.key →
    k = k'
  size : ∀ k e, c.entries.get? k = some e → e.size = CacheEntry.footprint e.key e.reply
  total : c.total = (c.entries.values.map fun e => e.size).sum
  le_budget : c.total ≤ c.budget
  horizon : c.horizon = none ↔ c.entries.count = 0
  le_expires : ∀ t, c.horizon = some t → ∀ k e, c.entries.get? k = some e → t ≤ e.expires

theorem visits_next : ∀ {ps : List (Nat × CacheEntry)} {previous : Option Nat},
    Strung c.entries previous none ps → Visits c.nextOf (slots ps).head? (slots ps)
  | [], _, _ => rfl
  | (k, e) :: ps, previous, ⟨hk, hs⟩ => by
    refine ⟨rfl, _, by rw [nextOf, hk, Option.map_some], ?_⟩
    rw [Option.or_none]
    exact visits_next hs

/-- The walk back from the last of the entries goes on where the first of them is linked to. -/
theorem visits_previous : ∀ {ps : List (Nat × CacheEntry)} {previous next : Option Nat}
    {ks : List Nat}, Strung c.entries previous next ps → Visits c.previousOf previous ks →
      Visits c.previousOf ((slots ps).getLast?.or previous) ((slots ps).reverse ++ ks)
  | [], _, _, _, _, hv => hv
  | (k, e) :: ps, previous, next, ks, ⟨hk, hs⟩, hv => by
    have hv' : Visits c.previousOf (some k) (k :: ks) :=
      ⟨rfl, previous, by rw [previousOf, hk, Option.map_some], hv⟩
    have hback := visits_previous hs hv'
    rw [slots_cons, List.reverse_cons, List.append_assoc, List.getLast?_cons]
    cases hl : (slots ps).getLast? <;> rw [hl] at hback <;> exact hback

theorem Strung.values {a : Arena LinkedEntry} {next : Option Nat} :
    ∀ {ps : List (Nat × CacheEntry)} {previous : Option Nat}, Strung a previous next ps →
      ((slots ps).filterMap a.get?).map LinkedEntry.toCacheEntry = ps.map Prod.snd
  | [], _, _ => rfl
  | (k, e) :: ps, previous, ⟨hk, hs⟩ => by
    rw [slots_cons, List.filterMap_cons_some hk, List.map_cons, hs.values]
    rfl

theorem Strung.exists_mem {a : Arena LinkedEntry} {next : Option Nat} :
    ∀ {ps : List (Nat × CacheEntry)} {previous : Option Nat}, Strung a previous next ps →
      ∀ k ∈ slots ps, ∃ e p n, a.get? k = some ⟨e, p, n⟩ ∧ (k, e) ∈ ps
  | [], _, _, k, hk => by simp at hk
  | (k', e') :: ps, previous, ⟨hk', hs⟩, k, hk => by
    rcases List.mem_cons.1 hk with rfl | hk
    · exact ⟨e', _, _, hk', List.mem_cons_self⟩
    · obtain ⟨e, p, n, hget, hmem⟩ := hs.exists_mem k hk
      exact ⟨e, p, n, hget, List.mem_cons_of_mem _ hmem⟩

/-- What is in a slot is one of the entries that are held. -/
theorem Holds.mem_of_get? (h : c.Holds m ps) {x : LinkedEntry} (hx : c.entries.get? k = some x) :
    (k, x.toCacheEntry) ∈ ps := by
  have hk : k ∈ slots ps := (h.live k).2 (by rw [hx]; rfl)
  obtain ⟨e, p, n, hget, hmem⟩ := h.chained.strung.exists_mem k hk
  rw [hx, Option.some.injEq] at hget
  rw [hget]
  exact hmem

/-- A linked cache that holds what a sound cache holds is in order. -/
theorem Holds.wellLinked (h : c.Holds m ps) (hm : m.Sound) : c.WellLinked := by
  have hentry : ∀ k x, c.entries.get? k = some x → x.toCacheEntry ∈ m.entries := fun k x hx => by
    rw [h.entries]
    exact List.mem_map_of_mem (h.mem_of_get? hx)
  refine ⟨⟨slots ps, h.chained.nodup, h.live, ?_, h.chained.tail.symm, ?_⟩, ?_,
    fun k e he => hm.size _ (hentry k e he), ?_, ?_, ?_, ?_⟩
  · rw [h.chained.head]
    exact visits_next h.chained.strung
  · have hback : Visits c.previousOf ((slots ps).getLast?.or none) ((slots ps).reverse ++ []) :=
      visits_previous h.chained.strung rfl
    rwa [Option.or_none, List.append_nil, ← h.chained.tail] at hback
  · intro k k' e e' he he' hkey
    have hsame := Cache.eq_of_key hm.keys (hentry k e he) (hentry k' e' he') hkey
    have hentries : (ps.map Prod.snd).Nodup := by
      rw [← h.entries]
      exact hm.keys.of_map _
    have hpair := List.inj_on_of_nodup_map hentries (h.mem_of_get? he) (h.mem_of_get? he') hsame
    exact congrArg Prod.fst hpair
  · have hvalues := (Arena.values_perm h.chained.nodup h.live).map LinkedEntry.toCacheEntry
    rw [h.chained.strung.values, ← h.entries] at hvalues
    rw [← h.total, hm.total, ← Cache.occupied_perm hvalues, Cache.occupied_eq_sum, List.map_map]
    rfl
  · rw [← h.total, ← h.budget]
    exact hm.le_budget
  · rw [← h.horizon, h.count, List.length_eq_zero_iff]
    exact hm.horizon
  · intro t ht k e he
    rw [← h.horizon] at ht
    exact hm.le_expires t ht _ (hentry k e he)

/-! ## Runs -/

theorem holds_empty (lifetime : Duration) (budget : Nat) :
    (empty lifetime budget).Holds (.empty lifetime budget) [] :=
  ⟨⟨trivial, rfl, rfl, List.nodup_nil⟩, by simp [empty], rfl, rfl, rfl, rfl, rfl⟩

/-- A call is answered as by the cache that is held, and what is held stays so. -/
theorem Holds.perform (h : c.Holds m ps) (hm : m.Tallied) (call : CacheCall) :
    ∃ c' ps', c.perform call = some ((m.perform call).1, c') ∧
      c'.Holds (m.perform call).2 ps' := by
  cases call with
  | insert key reply now =>
    obtain ⟨c', ps', hc, h'⟩ := h.insert hm key reply now
    refine ⟨c', ps', ?_, h'⟩
    simp only [LinkedCache.perform, Option.bind_eq_bind, hc, Option.bind_some]
    rfl
  | lookup key now =>
    obtain ⟨c', ps', hc, h'⟩ := h.lookup hm key now
    refine ⟨c', ps', ?_, h'⟩
    simp only [LinkedCache.perform, Option.bind_eq_bind, hc, Option.bind_some]
    rfl
  | contains key now =>
    refine ⟨c, ps, ?_, h⟩
    simp only [LinkedCache.perform, Option.bind_eq_bind, h.contains hm, Option.bind_some]
    rfl
  | clear all now =>
    obtain ⟨c', ps', hc, h'⟩ := h.clear hm all now
    refine ⟨c', ps', ?_, h'⟩
    simp only [LinkedCache.perform, Option.bind_eq_bind, hc, Option.bind_some]
    rfl
  | setLifetime lifetime => exact ⟨_, ps, rfl, h.setLifetime lifetime⟩
  | setBudget budget =>
    obtain ⟨c', ps', hc, h'⟩ := h.setBudget hm budget
    refine ⟨c', ps', ?_, h'⟩
    simp only [LinkedCache.perform, Option.bind_eq_bind, hc, Option.bind_some]
    rfl

theorem Holds.run (calls : List CacheCall) : ∀ {c : LinkedCache} {m : Cache}
    {ps : List (Nat × CacheEntry)}, c.Holds m ps → m.Sound →
      ∃ c' ps', c.run calls = some ((m.run calls).1, c') ∧ c'.Holds (m.run calls).2 ps' ∧
        (m.run calls).2.Sound := by
  induction calls with
  | nil => exact fun h hm => ⟨_, _, rfl, h, hm⟩
  | cons call calls ih =>
    intro c m ps h hm
    obtain ⟨c₁, ps₁, hc₁, h₁⟩ := h.perform hm.toTallied call
    obtain ⟨c₂, ps₂, hc₂, h₂, hm₂⟩ := ih h₁ (hm.perform call)
    refine ⟨c₂, ps₂, ?_, h₂, hm₂⟩
    simp only [LinkedCache.run, Option.bind_eq_bind, hc₁, Option.bind_some, hc₂]
    rfl

/-- Whatever is asked of a cache, at whatever times: each call comes to an end without a look into
a dead slot and without more being taken off the total than is on it, the links and the books are
right behind it, and all is answered as without links. -/
theorem run_wellLinked (lifetime : Duration) (budget : Nat) (calls : List CacheCall) :
    ∃ c, (empty lifetime budget).run calls =
        some (((Cache.empty lifetime budget).run calls).1, c) ∧
      c.WellLinked := by
  obtain ⟨c, ps, hc, h, hm⟩ :=
    (holds_empty lifetime budget).run calls (Cache.sound_empty lifetime budget)
  exact ⟨c, hc, h.wellLinked hm⟩

end LinkedCache

end Treegram
