import Revalle.Base.ClpMap

/-!
# The cache over a history

What the users of a `ClpMap` may expect of it is said in terms of the calls they
made: a `get` answers with the value that was added last, unless something
happened to that entry, and what the map purges to make place is what was added
or got the longest time ago. `Past` and `usesOf` read off a history what these
words refer to, and `tracks_run` connects both to the list of the entries.

One thing happens to an entry that the documentation of `add` rules out: when
`add` rejects a value, "the map remains unchanged". It removes the old entry of
the key before it looks at the new value.
-/

namespace Base.ClpMap

open List

variable {K V : Type} [DecidableEq K]

/-- A call that was made, its time and what came of it. -/
structure Record (K V : Type) where
  call : Call K V
  curtime : ℤ
  outcome : Outcome K V

/-- The calls of a history in turn, with a record of each. -/
def Map.run (sizes : Sizes K V) (m : Map K V) :
    List (Call K V × ℤ) → Option (Map K V × List (Record K V))
  | [] => some (m, [])
  | (call, curtime) :: calls => do
    let (m, outcome) ← m.call sizes curtime call
    let (m, log) ← m.run sizes calls
    return (m, ⟨call, curtime, outcome⟩ :: log)

/-- The map that the constructor makes, by `setMemLimit(capacity)`. -/
def Map.new (capacity : UInt64) : Map K V := { Map.empty with memLimit := capacity.toNat }

/-! ## What a history says -/

/-- **What a history says about a key**: the value of the latest `add` for it that
returned true, if the entry was not deleted or purged since. -/
structure Past (V : Type) where
  value : V
  expires : ℤ
  /-- An `add` for the key has returned false since. -/
  rejected : Bool
  deriving DecidableEq

/-- The past of a key after one more call. -/
def Record.past (r : Record K V) (key : K) (p : Option (Past V)) : Option (Past V) :=
  match r.call with
  | .add key' v ttl =>
    if key' = key then
      if r.outcome.added then some ⟨v, expiration r.curtime ttl, false⟩
      else p.map (fun p => { p with rejected := true })
    else if key ∈ r.outcome.purged.map Entry.key then none else p
  | .get _ => p
  | .del key' => if key' = key then none else p
  | .setMemLimit _ => if key ∈ r.outcome.purged.map Entry.key then none else p

def pastOf (log : List (Record K V)) (key : K) : Option (Past V) :=
  log.foldl (fun p r => r.past key p) none

/-- The keys in the order of their use, the latest first, after one more call. -/
def Record.uses (r : Record K V) (uses : List K) : List K :=
  match r.call with
  | .add key _ _ => if r.outcome.added then key :: uses else uses
  | .get key => if r.outcome.got.isSome then key :: uses else uses
  | .del _ => uses
  | .setMemLimit _ => uses

/-- **The keys that were added or got**, the latest first. -/
def usesOf (log : List (Record K V)) : List K := log.foldl (fun uses r => r.uses uses) []

/-- The key that a call may add. -/
def Call.newKey : Call K V → Option K
  | .add key _ _ => some key
  | _ => none

/-- **Each purged entry is the least recently used one**: of those that are purged
after it, and of those that stay. -/
def LeastRecent (uses : List K) (purged stay : List (Entry K V)) : Prop :=
  purged.Pairwise (fun e e' => uses.idxOf e'.key < uses.idxOf e.key) ∧
    ∀ e ∈ purged, ∀ e' ∈ stay, uses.idxOf e'.key < uses.idxOf e.key

/-! ## The list follows the history -/

/-- The entries `l` are what the past of the keys and their uses say, at the time
`clock`. -/
structure Tracks (past : K → Option (Past V)) (uses : List K) (clock : ℤ)
    (l : List (Entry K V)) : Prop where
  stored : ∀ e ∈ l, past e.key = some ⟨e.value, e.expires, false⟩
  kept : ∀ key p, past key = some p → p.rejected = false →
    (∃ e ∈ l, e.key = key) ∨ p.expires < clock
  recent : l.Pairwise (fun e e' => uses.idxOf e.key < uses.idxOf e'.key)

theorem mem_without {key : K} {l : List (Entry K V)} {e : Entry K V} :
    e ∈ without key l ↔ e ∈ l ∧ e.key ≠ key := by
  simp [without]

section Steps

variable {past : K → Option (Past V)} {uses : List K} {clock curtime : ℤ} {l : List (Entry K V)}

section

variable (h : Tracks past uses clock l)
include h

/-- Some entries go, and with them what the history says of their keys. -/
theorem Tracks.drop (hclock : clock ≤ curtime) {past' : K → Option (Past V)} {l' : List (Entry K V)}
    (hsub : l'.Sublist l) (hstays : ∀ e ∈ l', past' e.key = past e.key)
    (hgoes : ∀ key p, past' key = some p → p.rejected = false →
      past key = some p ∧ ∀ e ∈ l, e.key = key → e ∈ l' ∨ p.expires < curtime) :
    Tracks past' uses curtime l' := by
  refine ⟨fun e he => ?_, fun key p hp hrejected => ?_, h.recent.sublist hsub⟩
  · rw [hstays e he]
    exact h.stored e (hsub.subset he)
  · obtain ⟨hpast, hentry⟩ := hgoes key p hp hrejected
    rcases h.kept key p hpast hrejected with ⟨e, he, hkey⟩ | hexpired
    · rcases hentry e he hkey with he' | hexpired
      · exact .inl ⟨e, he', hkey⟩
      · exact .inr hexpired
    · exact .inr (hexpired.trans_le hclock)

/-- An entry comes to the front, and its key is used. -/
theorem Tracks.cons {e : Entry K V} (hl : ∀ x ∈ l, x.key ≠ e.key) {past' : K → Option (Past V)}
    (hself : past' e.key = some ⟨e.value, e.expires, false⟩)
    (hothers : ∀ key, key ≠ e.key → past' key = past key) :
    Tracks past' (e.key :: uses) clock (e :: l) := by
  refine ⟨forall_mem_cons.mpr ⟨hself, fun x hx => ?_⟩, fun key p hp hrejected => ?_,
    pairwise_cons.mpr ⟨fun x hx => ?_, ?_⟩⟩
  · rw [hothers x.key (hl x hx)]
    exact h.stored x hx
  · by_cases hkey : key = e.key
    · exact .inl ⟨e, mem_cons_self, hkey.symm⟩
    · rw [hothers key hkey] at hp
      rcases h.kept key p hp hrejected with ⟨x, hx, hxkey⟩ | hexpired
      · exact .inl ⟨x, mem_cons_of_mem e hx, hxkey⟩
      · exact .inr hexpired
  · rw [idxOf_cons_self, idxOf_cons_ne _ (hl x hx).symm]
    exact Nat.succ_pos _
  · refine h.recent.imp_of_mem (fun {x y} hx hy hxy => ?_)
    rw [idxOf_cons_ne _ (hl x hx).symm, idxOf_cons_ne _ (hl y hy).symm]
    exact Nat.succ_lt_succ hxy

/-- The entry of a key goes. -/
theorem Tracks.remove (hclock : clock ≤ curtime) {key : K} {past' : K → Option (Past V)}
    (hothers : ∀ k, k ≠ key → past' k = past k)
    (hkey : ∀ p, past' key = some p → p.rejected = true) :
    Tracks past' uses curtime (without key l) := by
  refine h.drop hclock filter_sublist (fun e he => hothers e.key (mem_without.mp he).2)
    (fun k p hp hrejected => ?_)
  have hk : k ≠ key := by
    rintro rfl
    exact absurd (hkey p hp) (by simp [hrejected])
  rw [hothers k hk] at hp
  exact ⟨hp, fun e he hekey => .inl (mem_without.mpr ⟨he, hekey ▸ hk⟩)⟩

end

/-- The purged entries go, which are the least recently used ones. -/
theorem Tracks.purge {rest purged : List (Entry K V)}
    (h : Tracks past uses clock (rest ++ purged.reverse)) (hclock : clock ≤ curtime) :
    Tracks (fun k => if k ∈ purged.map Entry.key then none else past k) uses curtime rest ∧
      LeastRecent uses purged rest := by
  obtain ⟨-, hpurged, hboth⟩ := pairwise_append.mp h.recent
  refine ⟨h.drop hclock (sublist_append_left _ _) (fun e he => if_neg fun hmem => ?_)
    (fun k p hp _ => ?_), pairwise_reverse.mp hpurged,
    fun e he e' he' => hboth e' he' e (mem_reverse.mpr he)⟩
  · obtain ⟨e', he', hkey⟩ := mem_map.mp hmem
    have hlt := hboth e he e' (mem_reverse.mpr he')
    rw [hkey] at hlt
    exact lt_irrefl _ hlt
  · have hk : k ∉ purged.map Entry.key := fun hmem => by simp [hmem] at hp
    rw [if_neg hk] at hp
    refine ⟨hp, fun e he hekey => .inl ((mem_append.mp he).resolve_right fun hrev => hk ?_)⟩
    exact hekey ▸ mem_map_of_mem (mem_reverse.mp hrev)

/-- **One call**: the list follows the history, and what is purged is what was used
least recently. -/
theorem Effect.tracks {call : Call K V} {l' : List (Entry K V)} {o : Outcome K V}
    (heffect : Effect curtime call l l' o) (h : Tracks past uses clock l)
    (hclock : clock ≤ curtime) : Tracks (fun key => Record.past ⟨call, curtime, o⟩ key (past key))
      (Record.uses ⟨call, curtime, o⟩ uses) curtime l' ∧
    LeastRecent uses o.purged (l'.filter (fun e => call.newKey ≠ some e.key)) := by
  have hnone : ∀ stay : List (Entry K V), LeastRecent uses [] stay :=
    fun stay => ⟨List.Pairwise.nil, nofun⟩
  cases heffect with
  | rejected key v ttl =>
    refine ⟨h.remove hclock (fun k hk => by simp [Record.past, hk.symm]) fun p hp => ?_, hnone _⟩
    -- the entry is gone, and the history knows it as rejected
    simp only [Record.past, if_true, Bool.false_eq_true, if_false, Option.map_eq_some_iff] at hp
    obtain ⟨q, -, rfl⟩ := hp
    rfl
  | @added key v ttl memCounted _ rest purged hsplit =>
    have hkey : ∀ e ∈ rest, e.key ≠ key := fun e he =>
      (mem_without.mp (hsplit ▸ mem_append_left _ he)).2
    -- the old entry and the purged ones go, then the new one comes
    have hgone : Tracks (fun k => if k = key then none else past k) uses curtime
        (rest ++ purged.reverse) := hsplit ▸ h.remove hclock (fun k hk => if_neg hk) (by simp)
    obtain ⟨hrest, hlru⟩ := hgone.purge le_rfl
    refine ⟨?_, hlru.1, fun e he e' he' => ?_⟩
    · refine hrest.cons (e := ⟨key, v, expiration curtime ttl, memCounted⟩) hkey ?_ (fun k hk => ?_)
      · simp [Record.past]
      · simp [Record.past, hk, Ne.symm hk]
    · obtain ⟨hmem, hne⟩ := mem_filter.mp he'
      rcases mem_cons.mp hmem with rfl | hmem
      · simp [Call.newKey] at hne
      · exact hlru.2 e he e' hmem
  | @missed key _ hmiss =>
    refine ⟨h.drop hclock filter_sublist (fun _ _ => rfl) (fun k p hp _ => ⟨hp, ?_⟩), hnone _⟩
    intro e he hekey
    by_cases hk : e.key = key
    · -- an expired entry that is removed has expired for good
      have hexpired := hmiss e he hk
      have hstored := h.stored e he
      rw [hekey] at hstored
      have hexp : p.expires = e.expires :=
        congrArg Past.expires (Option.some.inj (hp.symm.trans hstored))
      exact .inr (hexp ▸ by simpa [Entry.expired] using hexpired)
    · exact .inl (mem_without.mpr ⟨he, hk⟩)
  | @found e _ he hfresh =>
    have hrest : Tracks (fun k => if k = e.key then none else past k) uses curtime
        (without e.key l) := h.remove hclock (fun k hk => if_neg hk) (by simp)
    refine ⟨hrest.cons (fun x hx => (mem_without.mp hx).2) (h.stored e he) (fun k hk => ?_),
      hnone _⟩
    simp [Record.past, hk]
  | deleted key =>
    exact ⟨h.remove hclock (fun k hk => by simp [Record.past, hk.symm]) (by simp [Record.past]),
      hnone _⟩
  | @limited newLimit _ _ purged hsplit =>
    obtain ⟨hrest, hlru⟩ := (hsplit ▸ h).purge hclock
    exact ⟨hrest, hlru.1, fun e he e' he' => hlru.2 e he e' (mem_of_mem_filter he')⟩

end Steps

/-! ## Whole histories -/

/-- **Every history runs through, and the map follows it.** -/
theorem tracks_run (sizes : Sizes K V) {calls : List (Call K V × ℤ)} {m : Map K V}
    {past : K → Option (Past V)} {uses : List K} {clock : ℤ} (hinv : Inv m)
    (htracks : Tracks past uses clock m.contents) (hclock : ∀ c ∈ calls, clock ≤ c.2)
    (htimes : (calls.map Prod.snd).Pairwise (· ≤ ·)) :
    ∃ m' log, m.run sizes calls = some (m', log) ∧ Inv m' ∧ ∀ t, (∀ c ∈ calls, c.2 ≤ t) →
      clock ≤ t → ∃ clock' ≤ t, Tracks (fun key => log.foldl (fun p r => r.past key p) (past key))
          (log.foldl (fun uses r => r.uses uses) uses) clock' m'.contents := by
  induction calls generalizing m past uses clock with
  | nil => exact ⟨m, [], rfl, hinv, fun t _ ht => ⟨clock, ht, htracks⟩⟩
  | cons c calls ih =>
    obtain ⟨call, curtime⟩ := c
    obtain ⟨hfirst, hrest⟩ := pairwise_cons.mp htimes
    obtain ⟨m1, o, hcall, hinv1, heffect⟩ := hinv.call_spec sizes call curtime
    obtain ⟨htracks1, -⟩ := heffect.tracks htracks (hclock _ mem_cons_self)
    obtain ⟨m2, log, hrun, hinv2, htracks2⟩ := ih hinv1 htracks1
      (fun c hc => hfirst c.2 (mem_map_of_mem hc)) hrest
    refine ⟨m2, ⟨call, curtime, o⟩ :: log, by simp [Map.run, hcall, hrun], hinv2, ?_⟩
    intro t ht _
    exact htracks2 t (fun c hc => ht c (mem_cons_of_mem _ hc)) (ht _ mem_cons_self)

omit [DecidableEq K] in
theorem inv_new (capacity : UInt64) : Inv (Map.new capacity : Map K V) where
  positions := nodup_nil
  keys := nodup_nil
  index_iff _ _ := by simp [Map.new, Map.empty]
  fresh := nofun
  counted_pos := nofun
  memUsed := rfl
  used_le := Nat.zero_le _
  limit_lt := capacity.toNat_lt

theorem tracks_new (clock : ℤ) (capacity : UInt64) :
    Tracks (fun _ => none) [] clock (Map.new capacity : Map K V).contents where
  stored := nofun
  kept _ _ h := by simp at h
  recent := List.Pairwise.nil

omit [DecidableEq K] in
/-- The keys of the index are those of the list. -/
theorem Inv.isSome_index_iff {m : Map K V} (h : Inv m) (key : K) :
    (m.index key).isSome ↔ key ∈ m.contents.map Entry.key := by
  rw [Option.isSome_iff_exists, Map.contents, map_map, mem_map]
  constructor
  · rintro ⟨position, hindex⟩
    obtain ⟨n, hn, -, hkey⟩ := (h.index_iff key position).mp hindex
    exact ⟨n, hn, hkey⟩
  · rintro ⟨n, hn, rfl⟩
    exact ⟨n.position, h.index_eq hn⟩

/-- What `get` answers, by the past of the key. -/
theorem Tracks.get_iff {past : K → Option (Past V)} {uses : List K} {clock t : ℤ} {m : Map K V}
    (h : Tracks past uses clock m.contents) (hinv : Inv m) (ht : clock ≤ t) (key : K) :
    ∃ m' got, m.get key t = some (m', got) ∧ ∀ v, got = some v ↔
      ∃ p, past key = some p ∧ p.value = v ∧ ¬p.expires < t ∧ p.rejected = false := by
  obtain ⟨m', got, hget, -, heffect⟩ := hinv.get_spec key t
  refine ⟨m', got, hget, fun v => ?_⟩
  generalize m'.contents = l' at heffect
  cases heffect with
  | missed hmiss =>
    refine ⟨fun hgot => absurd hgot (by simp), ?_⟩
    rintro ⟨p, hp, -, hfresh, hrejected⟩
    rcases h.kept key p hp hrejected with ⟨e, he, rfl⟩ | hexpired
    · have hexpires : p.expires = e.expires := by
        rw [Option.some.inj (hp.symm.trans (h.stored e he))]
      have hgone := hmiss e he rfl
      rw [Entry.expired, ← hexpires] at hgone
      exact absurd (of_decide_eq_true hgone) hfresh
    · exact absurd (hexpired.trans_le ht) hfresh
  | @found e _ he hfresh =>
    have hpast := h.stored e he
    rw [Entry.expired, decide_eq_false_iff_not] at hfresh
    constructor
    · intro hgot
      exact ⟨_, hpast, Option.some.inj hgot, hfresh, rfl⟩
    · rintro ⟨p, hp, rfl, -, -⟩
      rw [Option.some.inj (hp.symm.trans hpast)]

/-- The list of a map follows the whole history of the map. -/
theorem tracks_run_new (sizes : Sizes K V) (capacity : UInt64) (calls : List (Call K V × ℤ))
    (htimes : (calls.map Prod.snd).Pairwise (· ≤ ·)) :
    ∃ m log, (Map.new capacity).run sizes calls = some (m, log) ∧ Inv m ∧
      ∀ t, (∀ c ∈ calls, c.2 ≤ t) →
        ∃ clock ≤ t, Tracks (pastOf log) (usesOf log) clock m.contents := by
  cases calls with
  | nil =>
    exact ⟨_, _, rfl, inv_new capacity, fun t _ => ⟨t, le_rfl, tracks_new t capacity⟩⟩
  | cons c calls =>
    have hfirst : ∀ c' ∈ c :: calls, c.2 ≤ c'.2 := forall_mem_cons.mpr
      ⟨le_rfl, fun c' hc' => (pairwise_cons.mp htimes).1 _ (mem_map_of_mem hc')⟩
    obtain ⟨m, log, hrun, hinv, htracks⟩ :=
      tracks_run sizes (inv_new capacity) (tracks_new c.2 capacity) hfirst htimes
    exact ⟨m, log, hrun, hinv, fun t ht => htracks t ht (ht c mem_cons_self)⟩

/-- **The map keeps its accounts and answers by its history**: for every capacity
and every history at non-decreasing times, no call fails, the memory used is the
sum of what is counted for the entries and within the limit, the list and the
index hold the same keys, once each, `get` returns the value that was added last
unless the entry was deleted, purged or expired, or an `add` for the key was
rejected since, and what is purged is what was used least recently. -/
theorem clpMap_correct (sizes : Sizes K V) (capacity : UInt64) (calls : List (Call K V × ℤ))
    (htimes : (calls.map Prod.snd).Pairwise (· ≤ ·)) :
    ∃ m log, (Map.new capacity).run sizes calls = some (m, log) ∧
      m.memUsed = (m.contents.map Entry.memCounted).sum ∧ m.memUsed ≤ m.memLimit ∧
      (m.contents.map Entry.key).Nodup ∧
      (∀ key, (m.index key).isSome ↔ key ∈ m.contents.map Entry.key) ∧
      (∀ key position, m.index key = some position →
        ∃ n, m.node position = some n ∧ n.key = key) ∧
      ∀ t, (∀ c ∈ calls, c.2 ≤ t) →
        (∀ key, ∃ m' got, m.get key t = some (m', got) ∧ ∀ v, got = some v ↔
          ∃ p, pastOf log key = some p ∧ p.value = v ∧ ¬p.expires < t ∧ p.rejected = false) ∧
        ∀ call, ∃ m' o, m.call sizes t call = some (m', o) ∧
          LeastRecent (usesOf log) o.purged
            (m'.contents.filter (fun e => call.newKey ≠ some e.key)) := by
  obtain ⟨m, log, hrun, hinv, htracks⟩ := tracks_run_new sizes capacity calls htimes
  refine ⟨m, log, hrun, ?_, hinv.used_le, ?_, hinv.isSome_index_iff, ?_, fun t ht => ?_⟩
  · rw [hinv.memUsed, Map.contents, List.map_map]
    rfl
  · rw [Map.contents, List.map_map]
    exact hinv.keys
  · intro key position hindex
    obtain ⟨n, hn, rfl, hkey⟩ := (hinv.index_iff key position).mp hindex
    exact ⟨n, hinv.node_eq hn, hkey⟩
  · obtain ⟨clock, hclock, htracks⟩ := htracks t ht
    refine ⟨htracks.get_iff hinv hclock, fun call => ?_⟩
    obtain ⟨m', o, hcall, -, heffect⟩ := hinv.call_spec sizes call t
    exact ⟨m', o, hcall, (heffect.tracks htracks hclock).2⟩

/-- The sizes of a small instance. -/
def smallSizes : Sizes ℕ ℕ := ⟨fun _ => 1, fun v => v, 1, 1⟩

theorem clpMap_correct_evicting :
    (([(.add 1 5 10, 0), (.add 2 5 10, 0), (.get 1, 1), (.add 3 5 10, 2)] :
      List (Call ℕ ℕ × ℤ)).map Prod.snd).Pairwise (· ≤ ·) ∧
    ∃ m log, (Map.new 20 : Map ℕ ℕ).run smallSizes
      [(.add 1 5 10, 0), (.add 2 5 10, 0), (.get 1, 1), (.add 3 5 10, 2)] = some (m, log) ∧
      m.memUsed ≤ m.memLimit :=
  ⟨by decide, by
    obtain ⟨m, log, hrun, -, hle, -⟩ := clpMap_correct smallSizes 20
      [(.add 1 5 10, 0), (.add 2 5 10, 0), (.get 1, 1), (.add 3 5 10, 2)] (by decide)
    exact ⟨m, log, hrun, hle⟩⟩

/-- **A rejected value takes the stored one with it**: the map does not remain
unchanged when `add` returns false. -/
theorem get_none_of_add_rejected :
    ∃ m log m', (Map.new 20 : Map ℕ ℕ).run smallSizes [(.add 1 5 10, 0), (.add 1 6 (-1), 0)] =
        some (m, log) ∧
      log.map (fun r => r.outcome.added) = [true, false] ∧
      (pastOf log 1).map Past.value = some 5 ∧ m.get 1 0 = some (m', none) :=
  ⟨_, _, _, rfl, rfl, rfl, rfl⟩

/-! ## Values that are refused -/

/-- Whatever the times of the calls, a history runs through and keeps the invariant. -/
theorem Inv.run {m : Map K V} (h : Inv m) (sizes : Sizes K V) (calls : List (Call K V × ℤ)) :
    ∃ m' log, m.run sizes calls = some (m', log) ∧ Inv m' := by
  induction calls generalizing m with
  | nil => exact ⟨m, [], rfl, h⟩
  | cons c calls ih =>
    obtain ⟨m1, o, hcall, hinv1, -⟩ := h.call_spec sizes c.1 c.2
    obtain ⟨m2, log, hrun, hinv2⟩ := ih hinv1
    exact ⟨m2, ⟨c.1, c.2, o⟩ :: log, by simp [Map.run, hcall, hrun], hinv2⟩

/-- **A refused `add` leaves no stale value and harms no other entry.** After any
history, when `add` returns false, a `get` of its key finds nothing at any time,
and the entries of all other keys are found until they expire. -/
theorem get_of_add_refused (sizes : Sizes K V) (capacity : UInt64) (calls : List (Call K V × ℤ))
    (key : K) (v : V) (ttl curtime : ℤ) :
    ∃ m log m' o, (Map.new capacity).run sizes calls = some (m, log) ∧
      m.add sizes key v ttl curtime = some (m', o) ∧
      (o.added = false → ∀ t, (∃ m'', m'.get key t = some (m'', none)) ∧
        ∀ e ∈ m.contents, e.key ≠ key → e.expired t = false →
          ∃ m'', m'.get e.key t = some (m'', some e.value)) := by
  obtain ⟨m, log, hrun, hinv⟩ := (inv_new capacity).run sizes calls
  obtain ⟨m', o, hadd, hinv', heffect⟩ := hinv.add_spec sizes key v ttl curtime
  refine ⟨m, log, m', o, hrun, hadd, fun hrefused t => ?_⟩
  have hcontents : m'.contents = without key m.contents := by
    generalize m'.contents = l' at heffect
    cases heffect with
    | rejected => rfl
    | added => exact nomatch hrefused
  refine ⟨⟨m', hinv'.get_of_forall_ne (fun n hn => ?_) t⟩, fun e he hkey hfresh => ?_⟩
  · have hmem : n.toEntry ∈ without key m.contents := hcontents ▸ mem_map_of_mem hn
    exact (mem_without.mp hmem).2
  · have hmem : e ∈ m'.contents := hcontents ▸ mem_without.mpr ⟨he, hkey⟩
    obtain ⟨n, hn, rfl⟩ := mem_map.mp hmem
    exact ⟨_, hinv'.get_of_fresh hn hfresh⟩

end Base.ClpMap
