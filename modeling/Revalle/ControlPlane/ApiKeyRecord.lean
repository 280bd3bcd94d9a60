import Revalle.ControlPlane.ApiKeyManager

/-!
# The record of an API key

The maps of the manager agree after every history (`inv_run`), and a history can be read
through the record of one key (`record_run`): it comes into being with `generate`, is
changed by requests with its key and by `revoke`, and ends with `delete`. So a record that
is there says that its key was not deleted, and one that is enabled that it was not revoked
(`recordAfter_spec`).
-/

namespace ControlPlane.ApiKeyManager

open Function List Record

/-! ## The histories -/

/-- The raw keys that were issued, in order. -/
def rawKeys (h : History) : List String :=
  h.filterMap (fun e => match e.2 with | .generate g => some g.rawKey | _ => none)

/-- The identifiers that were issued, in order. -/
def keyIds (h : History) : List String :=
  h.filterMap (fun e => match e.2 with | .generate g => some (g.id e.1) | _ => none)

/-- What is drawn at random has not been drawn before. -/
def Fresh (h : History) : Prop := (rawKeys h).Nodup ∧ (keyIds h).Nodup

instance (h : History) : Decidable (Fresh h) := inferInstanceAs (Decidable (_ ∧ _))

/-- Time does not go backwards. -/
def Ordered (h : History) : Prop := (h.map Prod.fst).Pairwise (· ≤ ·)

instance (h : History) : Decidable (Ordered h) := inferInstanceAs (Decidable (List.Pairwise _ _))

/-- The key `k` was issued at `t`, by `g`, and the calls `after` followed. -/
def Issued (k : String) (h : History) (t : ℤ) (g : Generation) (after : History) : Prop :=
  g.rawKey = k ∧ ∃ before, h = before ++ (t, .generate g) :: after

theorem rawKeys_append (h h' : History) : rawKeys (h ++ h') = rawKeys h ++ rawKeys h' :=
  filterMap_append

theorem keyIds_append (h h' : History) : keyIds (h ++ h') = keyIds h ++ keyIds h' :=
  filterMap_append

theorem Fresh.left {h h' : History} (hfresh : Fresh (h ++ h')) : Fresh h := by
  rw [Fresh, rawKeys_append, keyIds_append] at hfresh
  exact ⟨hfresh.1.of_append_left, hfresh.2.of_append_left⟩

/-- A key that is issued is new, and so is its identifier. -/
theorem Fresh.not_mem {h : History} {g : Generation} {now : ℤ}
    (hfresh : Fresh (h ++ [(now, .generate g)])) : g.rawKey ∉ rawKeys h ∧ g.id now ∉ keyIds h := by
  rw [Fresh, rawKeys_append, keyIds_append] at hfresh
  exact ⟨fun hk => disjoint_of_nodup_append hfresh.1 hk (mem_singleton.mpr rfl),
    fun hi => disjoint_of_nodup_append hfresh.2 hi (mem_singleton.mpr rfl)⟩

theorem rawKey_ne_empty (g : Generation) : g.rawKey ≠ "" := by
  intro h
  have := congrArg String.length h
  simp [Generation.rawKey, String.length_append] at this

/-- A key that was issued was issued once. -/
theorem exists_issued {k : String} {h : History} (hk : k ∈ rawKeys h) :
    ∃ t g after, Issued k h t g after := by
  obtain ⟨⟨t, call⟩, he, hcall⟩ := mem_filterMap.mp hk
  cases call with
  | generate g =>
    obtain ⟨before, after, rfl⟩ := append_of_mem he
    exact ⟨t, g, after, Option.some.inj hcall, before, rfl⟩
  | _ => simp at hcall

section Records

variable {H : Type} [DecidableEq H] {hash : String → H} {s : State H}

/-! ## The map of the keys -/

variable {f : KeyMeta H → KeyMeta H} {g : Generation} {k : String} {r : Record H} {after : History}

theorem record_modify (hf : ∀ m, (f m).keyHash = m.keyHash) (x y : H) : (s.modify x f).record y =
      if y = x then (s.record y).map (fun r => (f r.1, r.2)) else s.record y := by
  show ((s.modify x f).get y).bind (fun m => (s.usageCounters y).map (fun c => (m, c))) = _
  rw [State.get, State.modify, s.keys.get_modify hf, State.record]
  show (if y = x then (s.get y).map f else s.get y).bind _ = _
  split
  · cases s.get y with
    | none => rfl
    | some m => cases s.usageCounters y <;> rfl
  · rfl

theorem record_update_counters (x y : H) (c : Option Counters) :
    ({ s with usageCounters := update s.usageCounters x c } : State H).record y =
      if y = x then (s.get y).bind (fun m => c.map (fun c => (m, c))) else s.record y := by
  show (s.get y).bind (fun m => (update s.usageCounters x c y).map (fun c => (m, c))) = _
  rw [update_apply]
  split_ifs <;> rfl

theorem get_remove (m : KeyMeta H) (y : H) :
    (s.remove m).get y = if y = m.keyHash then none else s.get y :=
  s.keys.get_erase m.keyHash y

theorem record_remove (m : KeyMeta H) (y : H) :
    (s.remove m).record y = if y = m.keyHash then none else s.record y := by
  rw [State.record, get_remove]
  split
  · rfl
  · rename_i h
    show (s.get y).bind (fun m' => (update s.usageCounters m.keyHash none y).map _) = _
    rw [update_of_ne h]
    rfl

variable {now : ℤ}

theorem get_generate (y : H) : (generate hash g now s).get y =
    if y = hash g.rawKey then some (g.keyMeta hash now) else s.get y :=
  s.keys.get_set (g.keyMeta hash now) y

theorem record_generate (y : H) : (generate hash g now s).record y =
    if y = hash g.rawKey then some (g.keyMeta hash now, .new now) else s.record y := by
  show ((generate hash g now s).get y).bind (fun m =>
    (update s.usageCounters (hash g.rawKey) (some (.new now)) y).map (fun c => (m, c))) = _
  rw [get_generate, update_apply]
  split_ifs <;> rfl

/-! ## The maps agree -/

/-- **The invariant** of the maps after a history: hashes and identifiers are of keys that
were issued, each once, and every key has its limits and counters. -/
structure Inv (hash : String → H) (h : History) (s : State H) : Prop where
  hash_mem : ∀ x m, s.get x = some m → ∃ k ∈ rawKeys h, x = hash k
  id_mem : ∀ x m, s.get x = some m → m.id ∈ keyIds h
  ids : ∀ x y m m', s.get x = some m → s.get y = some m' → m.id = m'.id → x = y
  limits : ∀ x m, s.get x = some m → s.usageLimits x = some m.rateLimit
  counters : ∀ x m, s.get x = some m → ∃ c, s.usageCounters x = some c

variable {h : History}

theorem Inv.mono (hinv : Inv hash h s) (h' : History) : Inv hash (h ++ h') s := by
  refine { hinv with hash_mem := fun x m hm => ?_, id_mem := fun x m hm => ?_ }
  · obtain ⟨k, hk, hmk⟩ := hinv.hash_mem x m hm
    rw [rawKeys_append]
    exact ⟨k, mem_append_left _ hk, hmk⟩
  · rw [keyIds_append]
    exact mem_append_left _ (hinv.id_mem x m hm)

open KeyMeta

/-- Every key of `s'` is one of `s`, with its identifier, limits and counters. -/
theorem Inv.of_get {s' : State H} (hinv : Inv hash h s)
    (hget : ∀ x m', s'.get x = some m' → ∃ m, s.get x = some m ∧ m'.id = m.id ∧
      m'.rateLimit = m.rateLimit)
    (hlimits : ∀ x m', s'.get x = some m' → s'.usageLimits x = s.usageLimits x)
    (hcounters : ∀ x m', s'.get x = some m' → s.usageCounters x ≠ none →
      s'.usageCounters x ≠ none) : Inv hash h s' := by
  refine ⟨fun x m' hm' => ?_, fun x m' hm' => ?_, fun x y m' n' hm' hn' hid => ?_,
    fun x m' hm' => ?_, fun x m' hm' => ?_⟩
  · obtain ⟨m, hm, -, -⟩ := hget x m' hm'
    exact hinv.hash_mem x m hm
  · obtain ⟨m, hm, hid, -⟩ := hget x m' hm'
    exact hid ▸ hinv.id_mem x m hm
  · obtain ⟨m, hm, hmid, -⟩ := hget x m' hm'
    obtain ⟨n, hn, hnid, -⟩ := hget y n' hn'
    exact hinv.ids x y m n hm hn (hmid.symm.trans (hid.trans hnid))
  · obtain ⟨m, hm, -, hrate⟩ := hget x m' hm'
    rw [hlimits x m' hm', hrate]
    exact hinv.limits x m hm
  · obtain ⟨m, hm, -, -⟩ := hget x m' hm'
    obtain ⟨c, hc⟩ := hinv.counters x m hm
    exact Option.ne_none_iff_exists'.mp (hcounters x m' hm' (by simp [hc]))

theorem Inv.modify (hinv : Inv hash h s) (x : H) (hhash : ∀ m, (f m).keyHash = m.keyHash)
    (hid : ∀ m, (f m).id = m.id) (hlimit : ∀ m, (f m).rateLimit = m.rateLimit) :
    Inv hash h (s.modify x f) := by
  refine hinv.of_get (fun y m' hm' => ?_) (fun _ _ _ => rfl) fun _ _ _ h => h
  have hget : (s.modify x f).get y = if y = x then (s.get y).map f else s.get y :=
    s.keys.get_modify hhash x y
  rw [hget] at hm'
  split at hm'
  · obtain ⟨m, hm, rfl⟩ := Option.map_eq_some_iff.mp hm'
    exact ⟨m, hm, hid m, hlimit m⟩
  · exact ⟨m', hm', rfl, rfl⟩

theorem Inv.updateCounters (hinv : Inv hash h s) (x : H) (c : Counters) :
    Inv hash h { s with usageCounters := update s.usageCounters x (some c) } := by
  refine hinv.of_get (fun _ m' hm' => ⟨m', hm', rfl, rfl⟩) (fun _ _ _ => rfl) fun y _ _ hy => ?_
  show update s.usageCounters x (some c) y ≠ none
  rw [update_apply]
  split
  · simp
  · exact hy

theorem Inv.remove (hinv : Inv hash h s) (x : KeyMeta H) : Inv hash h (s.remove x) := by
  have hget : ∀ y m, (s.remove x).get y = some m → y ≠ x.keyHash ∧ s.get y = some m := by
    intro y m hm
    rw [get_remove] at hm
    split at hm
    · simp at hm
    · exact ⟨by assumption, hm⟩
  refine hinv.of_get (fun y m hm => ⟨m, (hget y m hm).2, rfl, rfl⟩)
    (fun y m hm => update_of_ne (hget y m hm).1 ..) fun y m hm hc => ?_
  show update s.usageCounters x.keyHash none y ≠ none
  rwa [update_of_ne (hget y m hm).1]

section

variable (hinv : Inv hash h s) (hinj : Function.Injective hash)
include hinv hinj

theorem Inv.get_eq_none (hk : k ∉ rawKeys h) : s.get (hash k) = none := by
  refine Option.eq_none_iff_forall_ne_some.mpr fun m hm => ?_
  obtain ⟨k', hk', hkk⟩ := hinv.hash_mem _ m hm
  exact hk (hinj hkk ▸ hk')

omit hinj in
theorem Inv.generate (hfresh : Fresh (h ++ [(now, .generate g)])) :
    Inv hash (h ++ [(now, .generate g)]) (generate hash g now s) := by
  obtain ⟨-, hi⟩ := hfresh.not_mem
  have hold := hinv.mono [(now, .generate g)]
  -- a key of the new map is the one that is issued, or an old one
  have hget : ∀ x m, (ApiKeyManager.generate hash g now s).get x = some m →
      (x = hash g.rawKey ∧ m = g.keyMeta hash now) ∨ (x ≠ hash g.rawKey ∧ s.get x = some m) := by
    intro x m hm
    rw [get_generate] at hm
    split at hm
    · exact .inl ⟨by assumption, (Option.some.inj hm).symm⟩
    · exact .inr ⟨by assumption, hm⟩
  have hnew : ∀ x m, s.get x = some m → m.id ≠ (g.keyMeta hash now).id := by
    intro x m hm hid
    have hmem := hinv.id_mem x m hm
    rw [hid] at hmem
    exact hi hmem
  refine ⟨fun x m hm => ?_, fun x m hm => ?_, fun x y m n hm hn hid => ?_, fun x m hm => ?_,
    fun x m hm => ?_⟩
  · rcases hget x m hm with ⟨rfl, -⟩ | ⟨-, hm⟩
    · rw [rawKeys_append]
      exact ⟨g.rawKey, mem_append_right _ (mem_singleton.mpr rfl), rfl⟩
    · exact hold.hash_mem x m hm
  · rcases hget x m hm with ⟨-, rfl⟩ | ⟨-, hm⟩
    · rw [keyIds_append]
      exact mem_append_right _ (mem_singleton.mpr rfl)
    · exact hold.id_mem x m hm
  · rcases hget x m hm with ⟨rfl, rfl⟩ | ⟨-, hm⟩ <;> rcases hget y n hn with ⟨rfl, rfl⟩ | ⟨-, hn⟩
    · rfl
    · exact absurd hid.symm (hnew y n hn)
    · exact absurd hid (hnew x m hm)
    · exact hinv.ids x y m n hm hn hid
  · rcases hget x m hm with ⟨rfl, rfl⟩ | ⟨hx, hm⟩
    · exact update_self ..
    · exact (update_of_ne hx ..).trans (hinv.limits x m hm)
  · rcases hget x m hm with ⟨rfl, -⟩ | ⟨hx, hm⟩
    · exact ⟨_, update_self ..⟩
    · obtain ⟨c, hc⟩ := hinv.counters x m hm
      exact ⟨c, (update_of_ne hx ..).trans hc⟩

end

/-! ## A request -/

/-- The record of a key that is in the map. -/
theorem Inv.record_of_get (hinv : Inv hash h s) {x : H} {m : KeyMeta H}
    (hget : s.get x = some m) : ∃ c, s.usageCounters x = some c ∧ s.usageLimits x =
      some m.rateLimit ∧ s.record x = some (m, c) := by
  obtain ⟨c, hc⟩ := hinv.counters x m hget
  refine ⟨c, hc, hinv.limits x m hget, ?_⟩
  rw [State.record, hget, hc]
  rfl

theorem get_of_record {x : H} (hr : s.record x = some r) :
    s.get x = some r.1 ∧ s.usageCounters x = some r.2 := by
  obtain ⟨m, hm, hr⟩ := Option.bind_eq_some_iff.mp hr
  obtain ⟨c, hc, rfl⟩ := Option.map_eq_some_iff.mp hr
  exact ⟨hm, hc⟩

omit [DecidableEq H] in
theorem used_keyHash (now : ℤ) (m : KeyMeta H) : (m.used now).keyHash = m.keyHash := rfl

/-- A key that is disabled or has expired is turned away. -/
theorem validate_refused (hk : k ≠ "") {m : KeyMeta H} (hget : s.get (hash k) = some m)
    (h : m.enabled = false ∨ m.expired now = true) :
    ∃ reason, validate hash k now s = (s, .invalid reason) := by
  unfold validate
  simp only [if_neg hk, hget]
  split
  · exact ⟨_, rfl⟩
  · rw [if_pos (h.resolve_left (by assumption))]
    exact ⟨_, rfl⟩

section

variable (hinv : Inv hash h s)
include hinv

/-- The effect of a request that `validate` does not turn away before it looks at the
counters. -/
theorem validate_eq (hk : k ≠ "") (now : ℤ) {m : KeyMeta H} (hget : s.get (hash k) = some m)
    (hok : ¬(m.enabled = false ∨ m.expired now = true)) : ∃ c, s.usageCounters (hash k) = some c ∧
      validate hash k now s =
        match c.check m.rateLimit now with
        | (c', some reason) =>
          ({ s with usageCounters := update s.usageCounters (hash k) (some c') }, .invalid reason)
        | (c', none) =>
          (incrementUsage (hash k) (State.modify (hash k) (used now)
            { s with usageCounters := update s.usageCounters (hash k) (some c') }),
            .valid m.userId m.permissions m.scopes m.id) := by
  obtain ⟨c, hc, hl, -⟩ := hinv.record_of_get hget
  refine ⟨c, hc, ?_⟩
  unfold validate checkRateLimit
  simp only [if_neg hk, hget, if_neg (not_or.mp hok).1, if_neg (not_or.mp hok).2, hc, hl]
  cases c.check m.rateLimit now with
  | mk c' reason => cases reason <;> rfl

/-- **A request, as the record of its key sees it.** -/
theorem record_validate (hk : k ≠ "") (now : ℤ) (hr : s.record (hash k) = some r) :
    (validate hash k now s).1.record (hash k) = some (validated now r).1 ∧
      (validate hash k now s).2.isValid = (validated now r).2 := by
  obtain ⟨m, c⟩ := r
  obtain ⟨hget, hc⟩ := get_of_record hr
  unfold validated
  by_cases hrefuse : m.enabled = false ∨ m.expired now = true
  · obtain ⟨reason, heq⟩ := validate_refused hk hget hrefuse
    rw [if_pos hrefuse, heq]
    exact ⟨hr, rfl⟩
  rw [if_neg hrefuse]
  obtain ⟨c', hc', heq⟩ := validate_eq hinv hk now hget hrefuse
  obtain rfl : c = c' := Option.some.inj (hc.symm.trans hc')
  rw [heq]
  cases hcheck : c.check m.rateLimit now with
  | mk c' reason =>
    cases reason with
    | some reason =>
      simp only [record_update_counters, if_true, hget]
      exact ⟨rfl, rfl⟩
    | none =>
      refine ⟨?_, rfl⟩
      show (incrementUsage (hash k) _).record (hash k) = some (m.used now, c'.increment)
      rw [incrementUsage, record_update_counters, if_pos rfl, State.get, State.modify,
        KeyedList.get_modify _ (used_keyHash now), if_pos rfl]
      show ((s.get (hash k)).map _).bind (fun m' => ((update s.usageCounters (hash k)
        (some c') (hash k)).map Counters.increment).map (fun c => (m', c))) = _
      rw [hget, update_self]
      rfl

/-- What `validate` does to the state: nothing, or the counters of the key are refreshed, or
the request is counted too. -/
theorem validate_state (k : String) (now : ℤ) : (validate hash k now s).1 = s ∨ ∃ c',
      (validate hash k now s).1 =
          { s with usageCounters := update s.usageCounters (hash k) (some c') } ∨
        (validate hash k now s).1 = incrementUsage (hash k) (State.modify (hash k) (used now)
          { s with usageCounters := update s.usageCounters (hash k) (some c') }) := by
  by_cases hk : k = ""
  · rw [validate, if_pos hk]
    exact .inl rfl
  cases hget : s.get (hash k) with
  | none =>
    unfold validate
    simp only [if_neg hk, hget]
    exact .inl trivial
  | some m =>
    by_cases hrefuse : m.enabled = false ∨ m.expired now = true
    · obtain ⟨reason, heq⟩ := validate_refused hk hget hrefuse
      rw [heq]
      exact .inl rfl
    obtain ⟨c, -, heq⟩ := validate_eq hinv hk now hget hrefuse
    rw [heq]
    cases c.check m.rateLimit now with
    | mk c' reason =>
      cases reason with
      | some reason => exact .inr ⟨c', .inl rfl⟩
      | none => exact .inr ⟨c', .inr rfl⟩

/-- The other keys are not concerned. -/
theorem record_validate_of_ne (now : ℤ) {y : H} (hy : y ≠ hash k) :
    (validate hash k now s).1.record y = s.record y := by
  rcases validate_state hinv k now with heq | ⟨c', heq | heq⟩
  · rw [heq]
  · rw [heq, record_update_counters, if_neg hy]
  · rw [heq]
    simp only [incrementUsage, record_update_counters, if_neg hy, record_modify (used_keyHash now)]

theorem Inv.validate (k : String) (now : ℤ) : Inv hash h (validate hash k now s).1 := by
  rcases validate_state hinv k now with heq | ⟨c', heq | heq⟩
  · rw [heq]
    exact hinv
  · rw [heq]
    exact hinv.updateCounters _ _
  · have hmodify := (hinv.updateCounters (hash k) c').modify (hash k)
      (used_keyHash now) (fun _ => rfl) (fun _ => rfl)
    have hincr := hmodify.updateCounters (hash k) c'.increment
    have hcounters : update s.usageCounters (hash k) (some c') (hash k) = some c' :=
      update_self ..
    rw [heq, incrementUsage]
    show Inv hash h { State.modify (hash k) (used now) _ with
      usageCounters := update _ (hash k) ((update s.usageCounters (hash k) (some c') (hash k)).map
          Counters.increment) }
    rw [hcounters]
    exact hincr

/-! ## Calls by identifier -/

/-- The key that an identifier finds is the one whose record has the identifier. -/
theorem Inv.find_id {x : H} (hr : s.record x = some r) (keyId : String) :
    match s.keys.toList.find? (fun m => m.id = keyId) with
    | some m => m.keyHash = x ↔ keyId = r.1.id
    | none => keyId ≠ r.1.id := by
  obtain ⟨hget, -⟩ := get_of_record hr
  obtain ⟨hr1, hx⟩ := KeyedList.get_eq_some_iff.mp hget
  cases hfind : s.keys.toList.find? (fun m => m.id = keyId) with
  | some m =>
    have hm := mem_of_find?_eq_some hfind
    have hid : m.id = keyId := by simpa using find?_some hfind
    have hgetm : s.get m.keyHash = some m := KeyedList.get_eq_some_iff.mpr ⟨hm, rfl⟩
    constructor
    · intro hmx
      rw [hmx, hget] at hgetm
      rw [← hid, Option.some.inj hgetm]
    · intro hr
      exact hinv.ids _ x m r.1 hgetm hget (hid.trans hr)
  | none =>
    intro hid
    have := find?_eq_none.mp hfind r.1 hr1
    simp [hid] at this

/-- A call about the key with an identifier, which changes the record of that key. -/
theorem Inv.record_by_id (x : H) (keyId : String) {s' : State H} {f : Record H → Option (Record H)}
    (hnone : s.keys.toList.find? (fun m => m.id = keyId) = none → s' = s)
    (hsome : ∀ m, s.keys.toList.find? (fun m => m.id = keyId) = some m →
      s'.record x = if x = m.keyHash then (s.record x).bind f else s.record x) :
    s'.record x = (s.record x).bind fun r => if keyId = r.1.id then f r else some r := by
  have hfind := fun r hr => hinv.find_id (r := r) (x := x) hr keyId
  cases hm : s.keys.toList.find? (fun m => m.id = keyId) with
  | some m =>
    rw [hsome m hm]
    cases hr : s.record x with
    | none => split <;> rfl
    | some r =>
      have := hfind r hr
      rw [hm] at this
      simp only [eq_comm (a := x), this, Option.bind_some]
  | none =>
    rw [hnone hm]
    cases hr : s.record x with
    | none => rfl
    | some r =>
      have := hfind r hr
      rw [hm] at this
      exact (if_neg this).symm

theorem Inv.revoke (keyId : String) : Inv hash h (revoke keyId s).1 := by
  unfold ApiKeyManager.revoke
  cases s.keys.toList.find? (fun m => m.id = keyId) with
  | some m => exact hinv.modify _ (fun _ => rfl) (fun _ => rfl) (fun _ => rfl)
  | none => exact hinv

theorem Inv.delete (keyId : String) : Inv hash h (delete keyId s).1 := by
  unfold ApiKeyManager.delete
  cases s.keys.toList.find? (fun m => m.id = keyId) with
  | some m => exact hinv.remove m
  | none => exact hinv

/-! ## Whole histories -/

theorem inv_step (e : ℤ × Call) (hfresh : Fresh (h ++ [e])) :
    Inv hash (h ++ [e]) (e.2.run hash e.1 s) := by
  obtain ⟨now, call⟩ := e
  cases call with
  | generate g => exact hinv.generate hfresh
  | validate k => exact (hinv.validate k now).mono _
  | hasScope k scope => exact hinv.mono _
  | revoke keyId => exact (hinv.revoke keyId).mono _
  | delete keyId => exact (hinv.delete keyId).mono _

end

theorem inv_run (hash : String → H) (h : History) (hfresh : Fresh h) :
    Inv hash h (run hash h) := by
  induction h using reverseRecOn with
  | nil =>
    have hget : ∀ x, (run hash []).get x = none := fun _ => rfl
    constructor <;> simp [hget]
  | append_singleton h e ih =>
    rw [run_concat]
    exact inv_step (ih hfresh.left) e hfresh

/-- Another key is issued. -/
theorem record_generate_of_mem (hinj : Function.Injective hash)
    (hfresh : Fresh (h ++ [(now, .generate g)])) (hk : k ∈ rawKeys h) :
    (generate hash g now s).record (hash k) = s.record (hash k) := by
  have hnew := hfresh.not_mem.1
  have hkg : hash k ≠ hash g.rawKey := fun hkg => hnew (hinj hkg ▸ hk)
  rw [record_generate, if_neg hkg]

/-- **One call, as the record of a key sees it.** -/
theorem record_step (hinv : Inv hash h s) (hinj : Function.Injective hash) (e : ℤ × Call)
    (hfresh : Fresh (h ++ [e])) (hk : k ∈ rawKeys h) (hk0 : k ≠ "") :
    (e.2.run hash e.1 s).record (hash k) = (s.record (hash k)).bind (step k e) := by
  obtain ⟨now, call⟩ := e
  cases call with
  | generate g =>
    exact (record_generate_of_mem hinj hfresh hk).trans (Option.bind_fun_some _).symm
  | hasScope k' scope => exact (Option.bind_fun_some _).symm
  | validate k' =>
    show (validate hash k' now s).1.record (hash k) =
      (s.record (hash k)).bind fun r => if k' = k then some (validated now r).1 else some r
    by_cases hkk : k' = k
    · simp only [if_pos hkk]
      rw [hkk]
      cases hr : s.record (hash k) with
      | none =>
        -- a key without a record does not get one again
        have hget : s.get (hash k) = none := by
          refine Option.eq_none_iff_forall_ne_some.mpr fun m hget => ?_
          obtain ⟨c, -, -, hrec⟩ := hinv.record_of_get hget
          exact nomatch hr.symm.trans hrec
        unfold validate
        simp only [if_neg hk0, hget]
        exact hr
      | some r => exact (record_validate hinv hk0 now hr).1
    · simp only [if_neg hkk]
      exact (record_validate_of_ne hinv now fun h => hkk (hinj h).symm).trans
        (Option.bind_fun_some _).symm
  | revoke keyId =>
    refine hinv.record_by_id _ keyId (fun hm => ?_) fun m hm => ?_
    · simp only [Call.run, revoke, hm]
    · simp only [Call.run, revoke, hm, record_modify (f := KeyMeta.disabled) fun _ => rfl,
        Option.map_eq_bind]
      rfl
  | delete keyId =>
    refine hinv.record_by_id _ keyId (fun hm => ?_) fun m hm => ?_
    · simp only [Call.run, delete, hm]
    · simp only [Call.run, delete, hm, record_remove, Option.bind_fun_none]

/-- The record of the key `k` after calls that follow its generation. -/
def recordAfter (k : String) (r : Record H) (after : History) : Option (Record H) :=
  after.foldl (fun r e => r.bind (Record.step k e)) (some r)

omit [DecidableEq H] in
theorem recordAfter_concat (k : String) (r : Record H) (after : History) (e : ℤ × Call) :
    recordAfter k r (after ++ [e]) = (recordAfter k r after).bind (step k e) := by
  simp [recordAfter, foldl_append]

/-- **A whole history, as the record of a key sees it.** -/
theorem record_run (hinj : Function.Injective hash) {t : ℤ} (hfresh : Fresh h)
    (hissued : Issued k h t g after) :
    (run hash h).record (hash k) = recordAfter k (g.keyMeta hash t, .new t) after := by
  obtain ⟨rfl, before, rfl⟩ := hissued
  induction after using reverseRecOn with
  | nil =>
    rw [run_concat]
    show (generate hash g t (run hash before)).record (hash g.rawKey) = _
    rw [record_generate, if_pos rfl]
    rfl
  | append_singleton after e ih =>
    rw [← cons_append, ← append_assoc] at hfresh ⊢
    have hmem : g.rawKey ∈ rawKeys (before ++ (t, .generate g) :: after) := by
      rw [rawKeys_append]
      exact mem_append_right _ mem_cons_self
    rw [run_concat, recordAfter_concat, ← ih hfresh.left]
    exact record_step (inv_run hash _ hfresh.left) hinj e hfresh hmem (rawKey_ne_empty g)

/-! ## The life of a key -/

/-- What stays as it was issued. -/
structure SameKey (r r' : Record H) : Prop where
  id : r'.1.id = r.1.id
  scopes : r'.1.scopes = r.1.scopes
  expiresAt : r'.1.expiresAt = r.1.expiresAt
  rateLimit : r'.1.rateLimit = r.1.rateLimit

omit [DecidableEq H] in
theorem validated_same (now : ℤ) (r : Record H) : SameKey r (validated now r).1 ∧
      (validated now r).1.1.enabled = r.1.enabled := by
  unfold validated
  split
  · exact ⟨⟨rfl, rfl, rfl, rfl⟩, rfl⟩
  · split
    · exact ⟨⟨rfl, rfl, rfl, rfl⟩, rfl⟩
    · exact ⟨⟨rfl, rfl, rfl, rfl⟩, rfl⟩

omit [DecidableEq H] in
/-- What a call leaves of the record. -/
theorem Record.step_spec (k : String) (e : ℤ × Call) (r : Record H) :
    match step k e r with
    | none => e.2 = .delete r.1.id
    | some r' => SameKey r r' ∧ e.2 ≠ .delete r.1.id ∧
        (r'.1.enabled = true → r.1.enabled = true ∧ e.2 ≠ .revoke r.1.id) ∧
        (e.2 ≠ .validate k → r'.2 = r.2) := by
  have hsame : SameKey r r := ⟨rfl, rfl, rfl, rfl⟩
  obtain ⟨now, call⟩ := e
  cases call with
  | delete keyId =>
    by_cases hid : keyId = r.1.id
    · simp only [step, if_pos hid]
      rw [hid]
    · simp only [step, if_neg hid]
      exact ⟨hsame, fun h => hid (Call.delete.inj h), fun h => ⟨h, nofun⟩, fun _ => trivial⟩
  | validate k' =>
    by_cases hk : k' = k
    · obtain ⟨hsame', henabled⟩ := validated_same now r
      simp only [step, if_pos hk]
      exact ⟨hsame', nofun, fun h => ⟨henabled ▸ h, nofun⟩, fun h => absurd (congrArg _ hk) h⟩
    · simp only [step, if_neg hk]
      exact ⟨hsame, nofun, fun h => ⟨h, nofun⟩, fun _ => trivial⟩
  | revoke keyId =>
    by_cases hid : keyId = r.1.id
    · simp only [step, if_pos hid]
      exact ⟨⟨rfl, rfl, rfl, rfl⟩, nofun, fun h => absurd h nofun, fun _ => trivial⟩
    · simp only [step, if_neg hid]
      exact ⟨hsame, nofun, fun h => ⟨h, fun h => hid (Call.revoke.inj h)⟩, fun _ => trivial⟩
  | generate g => exact ⟨hsame, nofun, fun h => ⟨h, nofun⟩, fun _ => rfl⟩
  | hasScope k' scope => exact ⟨hsame, nofun, fun h => ⟨h, nofun⟩, fun _ => rfl⟩

omit [DecidableEq H] in
theorem SameKey.trans {r' r'' : Record H} (h : SameKey r r') (h' : SameKey r' r'') :
    SameKey r r'' :=
  ⟨h'.id.trans h.id, h'.scopes.trans h.scopes, h'.expiresAt.trans h.expiresAt,
    h'.rateLimit.trans h.rateLimit⟩

omit [DecidableEq H] in
/-- A record that is there says that its key was not deleted, and one that is enabled that
it was not revoked. -/
theorem recordAfter_spec (k : String) (r : Record H) (after : History) :
    match recordAfter k r after with
    | none => ∃ e ∈ after, e.2 = .delete r.1.id
    | some r' => SameKey r r' ∧ (∀ e ∈ after, e.2 ≠ .delete r.1.id) ∧
        (r'.1.enabled = true → ∀ e ∈ after, e.2 ≠ .revoke r.1.id) := by
  induction after using reverseRecOn with
  | nil => exact ⟨⟨rfl, rfl, rfl, rfl⟩, forall_mem_nil _, fun _ => forall_mem_nil _⟩
  | append_singleton after e ih =>
    rw [recordAfter_concat]
    cases h1 : recordAfter k r after with
    | none =>
      rw [h1] at ih
      obtain ⟨x, hx, hdelete⟩ := ih
      exact ⟨x, mem_append_left _ hx, hdelete⟩
    | some r1 =>
      rw [h1] at ih
      obtain ⟨hsame, hdelete, hrevoke⟩ := ih
      have hstep := step_spec k e r1
      rw [Option.bind_some]
      rw [hsame.id] at hstep
      cases h2 : step k e r1 with
      | none =>
        rw [h2] at hstep
        exact ⟨e, mem_append_right _ (mem_singleton.mpr rfl), hstep⟩
      | some r2 =>
        rw [h2] at hstep
        obtain ⟨hsame', hdelete', hrevoke', -⟩ := hstep
        refine ⟨hsame.trans hsame', ?_, fun hen => ?_⟩
        · exact forall_mem_append.mpr ⟨hdelete, forall_mem_singleton.mpr hdelete'⟩
        · obtain ⟨hen, hrevoke'⟩ := hrevoke' hen
          exact forall_mem_append.mpr ⟨hrevoke hen, forall_mem_singleton.mpr hrevoke'⟩

/-- A key that has a record was issued. -/
theorem issued_of_record (hinj : Function.Injective hash) (hfresh : Fresh h)
    (hr : (run hash h).record (hash k) = some r) :
    ∃ t g after, Issued k h t g after ∧ SameKey (g.keyMeta hash t, .new t) r ∧
      (∀ e ∈ after, e.2 ≠ .delete (g.id t)) ∧
      (r.1.enabled = true → ∀ e ∈ after, e.2 ≠ .revoke (g.id t)) := by
  have hk : k ∈ rawKeys h := by
    by_contra hk
    have hget := (inv_run hash h hfresh).get_eq_none hinj hk
    rw [(get_of_record hr).1] at hget
    cases hget
  obtain ⟨t, g, after, hissued⟩ := exists_issued hk
  have hspec := recordAfter_spec k (g.keyMeta hash t, .new t) after
  rw [record_run hinj hfresh hissued] at hr
  rw [hr] at hspec
  exact ⟨t, g, after, hissued, hspec⟩

end Records

end ControlPlane.ApiKeyManager
