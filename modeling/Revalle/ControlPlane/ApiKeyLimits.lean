import Revalle.ControlPlane.ApiKeyRecord

/-!
# What the limits and the lifetime of an API key come to

A request is admitted by `validate` only while its key is enabled and has not expired, and
the counters of the minute and of the day bound the requests that are admitted.

`hasScope` answers from the scopes alone, so that a key that was revoked or has expired
keeps them until it is deleted; and the monthly limit bounds nothing, other than through
the daily one.
-/

namespace ControlPlane.ApiKeyManager

open List Option WindowCounter Record

section Requests

variable {H : Type} [DecidableEq H] {hash : String → H} {s : State H} {h : History}

/-! ## The requests that are admitted -/

/-- A request that `validate` has admitted: when, and when the windows of the minute and
the day counter in which it is counted were opened. -/
structure Success where
  time : ℤ
  minute : ℤ
  day : ℤ
  deriving DecidableEq, Repr

/-- What a call adds to the requests that were admitted for the key `k`. -/
def admitted (hash : String → H) (k : String) (s : State H) (e : ℤ × Call) : List Success :=
  match e.2 with
  | .validate rawKey =>
    if rawKey = k ∧ (validate hash rawKey e.1 s).2.isValid then
      let c := ((validate hash rawKey e.1 s).1.usageCounters (hash k)).getD (.new e.1)
      [⟨e.1, c.minute.start, c.day.start⟩]
    else []
  | _ => []

def successesFrom (hash : String → H) (k : String) : State H → History → List Success
  | _, [] => []
  | s, e :: h => admitted hash k s e ++ successesFrom hash k (e.2.run hash e.1 s) h

/-- The requests of a history that were admitted for the key `k`. -/
def successes (hash : String → H) (k : String) (h : History) : List Success :=
  successesFrom hash k (.init H) h

theorem successesFrom_concat (k : String) (s : State H) (h : History) (e : ℤ × Call) :
    successesFrom hash k s (h ++ [e]) =
      successesFrom hash k s h ++ admitted hash k (runFrom hash s h) e := by
  induction h generalizing s with
  | nil => simp [successesFrom, runFrom]
  | cons x h ih =>
    rw [cons_append, successesFrom, ih, successesFrom, append_assoc]
    rfl

theorem successes_concat (k : String) (h : History) (e : ℤ × Call) :
    successes hash k (h ++ [e]) = successes hash k h ++ admitted hash k (run hash h) e :=
  successesFrom_concat k _ h e

variable {k : String} {log : List Success} {t : ℤ} {limits : RateLimit}

/-- A key without a record is not admitted. -/
theorem admitted_of_record_none (hinv : Inv hash h s) (hr : s.record (hash k) = none)
    (e : ℤ × Call) : admitted hash k s e = [] := by
  obtain ⟨now, call⟩ := e
  cases call with
  | validate k' =>
    refine if_neg ?_
    rintro ⟨rfl, hvalid⟩
    cases hget : s.get (hash k') with
    | none =>
      unfold validate at hvalid
      by_cases hk : k' = ""
      · simp [hk, Verdict.isValid] at hvalid
      · simp [hk, hget, Verdict.isValid] at hvalid
    | some m =>
      obtain ⟨c, -, -, hrec⟩ := hinv.record_of_get hget
      rw [hr] at hrec
      exact nomatch hrec
  | _ => rfl

/-- What is admitted for a key, by its record. -/
theorem admitted_of_record (hinv : Inv hash h s) (hk : k ≠ "") {r : Record H}
    (hr : s.record (hash k) = some r) (e : ℤ × Call) : admitted hash k s e =
      if e.2 = .validate k ∧ (validated e.1 r).2 then
        [⟨e.1, (validated e.1 r).1.2.minute.start, (validated e.1 r).1.2.day.start⟩] else [] := by
  obtain ⟨now, call⟩ := e
  cases call with
  | validate k' =>
    by_cases hkk : k' = k
    · subst hkk
      obtain ⟨hrec, hvalid⟩ := record_validate hinv hk now hr
      obtain ⟨-, hcounters⟩ := get_of_record hrec
      simp [admitted, hvalid, hcounters]
    · simp [admitted, hkk]
  | _ => rfl

/-! ## The counters bound the requests -/

/-- The log of a counter. -/
def logOf (opened : Success → ℤ) (log : List Success) : List (ℤ × ℤ) :=
  log.map (fun x => (x.time, opened x))

/-- **The invariant** of the counters of a key that was issued at `t` with `limits`. -/
structure Accounted (limits : RateLimit) (t : ℤ) (h : History) (log : List Success)
    (o : Option (Record H)) : Prop where
  minute : WindowCounter.Bounded 60000 limits.rpm t (logOf Success.minute log)
  day : WindowCounter.Bounded 86400000 limits.daily t (logOf Success.day log)
  accounts : ∀ r, o = some r →
    r.1.rateLimit = limits ∧
    WindowCounter.Accounts 60000 limits.rpm t r.2.minute (logOf Success.minute log) ∧
    WindowCounter.Accounts 86400000 limits.daily t r.2.day (logOf Success.day log) ∧
    ∀ T, (∀ x ∈ h, x.1 ≤ T) → r.2.minute.start ≤ T ∧ r.2.day.start ≤ T

omit [DecidableEq H] in
/-- Calls that admit nothing and leave the counters alone. -/
theorem Accounted.skip {o o' : Option (Record H)} (hacc : Accounted limits t h log o) (e : ℤ × Call)
    (ho : ∀ r', o' = some r' → ∃ r, o = some r ∧ r'.1.rateLimit = r.1.rateLimit ∧ r'.2 = r.2) :
    Accounted limits t (h ++ [e]) (log ++ []) o' := by
  rw [append_nil]
  refine ⟨hacc.minute, hacc.day, fun r' hr' => ?_⟩
  obtain ⟨r, hr, hlimit, hcounters⟩ := ho r' hr'
  obtain ⟨hl, hm, hd, htime⟩ := hacc.accounts r hr
  rw [hlimit, hcounters]
  exact ⟨hl, hm, hd, fun T hT => htime T (fun x hx => hT x (mem_append_left _ hx))⟩

omit [DecidableEq H] in
theorem Accounted.validated {now : ℤ} {r : Record H} (hacc : Accounted limits t h log (some r))
    (call : Call) (hnow : ∀ x ∈ h, x.1 ≤ now) : Accounted limits t (h ++ [(now, call)])
      (log ++ if (validated now r).2 then
        [⟨now, (validated now r).1.2.minute.start, (validated now r).1.2.day.start⟩] else [])
      (some (validated now r).1) := by
  obtain ⟨m, c⟩ := r
  obtain ⟨hl, hm, hd, htime⟩ := hacc.accounts _ rfl
  obtain ⟨hmstart, hdstart⟩ := htime now hnow
  have hmr := hm.refresh now
  have hdr := hd.refresh now
  have hmle := refresh_start_le 60000 hmstart
  have hdle := refresh_start_le 86400000 hdstart
  have hT : ∀ T, (∀ x ∈ h ++ [(now, call)], x.1 ≤ T) → now ≤ T := fun T hT =>
    hT (now, call) (mem_append_right _ (mem_singleton.mpr rfl))
  unfold Record.validated
  by_cases hoff : m.enabled = false ∨ m.expired now
  · rw [if_pos hoff]
    exact hacc.skip _ (fun r' hr' => ⟨r', hr', rfl, rfl⟩)
  rw [if_neg hoff]
  -- the three outcomes of the rate check
  subst hl
  unfold Counters.check
  by_cases hrpm : (c.minute.refresh 60000 now).count ≥ m.rateLimit.rpm
  · simp only [if_pos hrpm, Bool.false_eq_true, if_false, append_nil]
    refine ⟨hacc.minute, hacc.day, ?_⟩
    rintro r' ⟨⟩
    exact ⟨rfl, hmr, hd, fun T h => ⟨hmle.trans (hT T h), hdstart.trans (hT T h)⟩⟩
  by_cases hdaily : (c.day.refresh 86400000 now).count ≥ m.rateLimit.daily
  · simp only [if_neg hrpm, if_pos hdaily, Bool.false_eq_true, if_false, append_nil]
    refine ⟨hacc.minute, hacc.day, ?_⟩
    rintro r' ⟨⟩
    exact ⟨rfl, hmr, hdr, fun T h => ⟨hmle.trans (hT T h), hdle.trans (hT T h)⟩⟩
  simp only [if_neg hrpm, if_neg hdaily, if_true]
  have hmhit := hmr.hit (lt_of_not_ge hrpm) hmle
  have hdhit := hdr.hit (lt_of_not_ge hdaily) hdle
  have hlog : ∀ (opened : Success → ℤ) (x : Success),
      logOf opened (log ++ [x]) = logOf opened log ++ [(x.time, opened x)] := by
    intro opened x
    simp [logOf]
  refine ⟨?_, ?_, ?_⟩
  · rw [hlog]
    exact hmhit.toBounded
  · rw [hlog]
    exact hdhit.toBounded
  · rintro r' ⟨⟩
    rw [hlog, hlog]
    exact ⟨rfl, hmhit, hdhit, fun T h => ⟨hmle.trans (hT T h), hdle.trans (hT T h)⟩⟩

theorem Ordered.last {e : ℤ × Call} (hord : Ordered (h ++ [e])) : ∀ x ∈ h, x.1 ≤ e.1 := by
  rw [Ordered, map_append, pairwise_append] at hord
  exact fun x hx => hord.2.2 x.1 (mem_map_of_mem hx) e.1 (mem_singleton.mpr rfl)

theorem Ordered.left {h' : History} (hord : Ordered (h ++ h')) : Ordered h := by
  rw [Ordered, map_append, pairwise_append] at hord
  exact hord.1

/-- **One call.** -/
theorem accounted_step (hinv : Inv hash h s) (hinj : Function.Injective hash) {e : ℤ × Call}
    (hfresh : Fresh (h ++ [e])) (hord : Ordered (h ++ [e])) (hk : k ∈ rawKeys h) (hk0 : k ≠ "")
    (hacc : Accounted limits t h log (s.record (hash k))) :
    Accounted limits t (h ++ [e]) (log ++ admitted hash k s e)
      ((e.2.run hash e.1 s).record (hash k)) := by
  rw [record_step hinv hinj e hfresh hk hk0]
  cases hr : s.record (hash k) with
  | none =>
    rw [admitted_of_record_none hinv hr]
    exact hacc.skip e (fun r' hr' => absurd hr' (by simp))
  | some r =>
    rw [admitted_of_record hinv hk0 hr]
    rw [hr] at hacc
    by_cases hcall : e.2 = .validate k
    · have hvalidated := hacc.validated e.2 hord.last
      simp only [hcall, true_and, bind_some, step, if_true] at hvalidated ⊢
      rw [show e = (e.1, Call.validate k) from Prod.ext rfl hcall]
      exact hvalidated
    · rw [if_neg (fun h => hcall h.1)]
      refine hacc.skip e (fun r' hr' => ⟨r, rfl, ?_⟩)
      have hstep := step_spec k e r
      rw [show step k e r = some r' from hr'] at hstep
      exact ⟨hstep.1.rateLimit, hstep.2.2.2 hcall⟩

section

variable (hinj : Function.Injective hash)
include hinj

/-- Before it is issued, a key is not admitted. -/
theorem successes_of_not_mem (hfresh : Fresh h) (hk : k ∉ rawKeys h) : successes hash k h = [] := by
  induction h using reverseRecOn with
  | nil => rfl
  | append_singleton h e ih =>
    rw [rawKeys_append, mem_append, not_or] at hk
    have hinv := inv_run hash h hfresh.left
    have hr : (run hash h).record (hash k) = none := by
      rw [State.record, hinv.get_eq_none hinj hk.1]
      rfl
    rw [successes_concat, ih hfresh.left hk.1, admitted_of_record_none hinv hr]
    rfl

/-- **A whole history.** -/
theorem accounted_run {g : Generation} {after : History} (hfresh : Fresh h) (hord : Ordered h)
    (hissued : Issued k h t g after) :
    Accounted g.rateLimit t h (successes hash k h) ((run hash h).record (hash k)) := by
  obtain ⟨rfl, before, rfl⟩ := hissued
  induction after using reverseRecOn with
  | nil =>
    have hrecord := record_run hinj hfresh ⟨rfl, before, rfl⟩
    rw [hrecord, successes_concat]
    rw [successes_of_not_mem hinj hfresh.left hfresh.not_mem.1]
    refine ⟨accounts_nil.toBounded, accounts_nil.toBounded, ?_⟩
    rintro r ⟨⟩
    refine ⟨rfl, accounts_nil, accounts_nil, fun T hT => ?_⟩
    have ht : t ≤ T := hT _ (mem_append_right _ (mem_singleton.mpr rfl))
    exact ⟨ht, ht⟩
  | append_singleton after e ih =>
    rw [← cons_append, ← append_assoc] at hfresh hord ⊢
    have hmem : g.rawKey ∈ rawKeys (before ++ (t, .generate g) :: after) := by
      rw [rawKeys_append]
      exact mem_append_right _ mem_cons_self
    rw [run_concat, successes_concat]
    exact accounted_step (inv_run hash _ hfresh.left) hinj hfresh hord hmem (rawKey_ne_empty g)
      (ih hfresh.left hord.left)

end

/-! ## The answers -/

/-- `validate` admits a key only with a record that is enabled and has not expired. -/
theorem exists_record_of_valid (hinv : Inv hash h s) {now : ℤ}
    (hvalid : (validate hash k now s).2.isValid = true) :
    ∃ r, s.record (hash k) = some r ∧ r.1.enabled = true ∧ r.1.expired now = false := by
  cases hr : s.record (hash k) with
  | none =>
    have hnone := admitted_of_record_none hinv hr (now, .validate k)
    simp [admitted, hvalid] at hnone
  | some r =>
    have hk : k ≠ "" := by
      intro hk
      simp [validate, hk, Verdict.isValid] at hvalid
    rw [(record_validate hinv hk now hr).2, validated] at hvalid
    split at hvalid
    · simp at hvalid
    · rename_i hoff
      rw [not_or] at hoff
      exact ⟨r, rfl, by simpa using hoff.1, by simpa using hoff.2⟩

end Requests

/-- **What the limits and the lifetime of a key come to**, for every history. A key that is
admitted was issued, and was not revoked, not deleted and has not expired. A scope is
granted iff the key was issued with it and was not deleted. Each window of the minute and
of the day counter has no more admitted requests than the limit, and the first 30 days have
no more than 30 times the daily limit, which is within the monthly one only if the limits
are chosen so. -/
theorem key_limits {H : Type} [DecidableEq H] (hash : String → H)
    (hinj : Function.Injective hash) (h : History) (hfresh : Fresh h) (hord : Ordered h)
    (k : String) :
    (∀ now, (validate hash k now (run hash h)).2.isValid = true →
      ∃ t g after, Issued k h t g after ∧ (∀ e ∈ after, e.2 ≠ .revoke (g.id t)) ∧
        (∀ e ∈ after, e.2 ≠ .delete (g.id t)) ∧
        ∀ x, (g.keyMeta hash t).expiresAt = some x → now ≤ x) ∧
    (∀ scope, hasScope hash k scope (run hash h) = true ↔
      ∃ t g after, Issued k h t g after ∧ (∀ e ∈ after, e.2 ≠ .delete (g.id t)) ∧
        covers g.scopes scope = true) ∧
    ∀ t g after, Issued k h t g after →
      (∀ w, (successes hash k h).countP (fun x => x.minute = w) ≤ g.rateLimit.rpm) ∧
      (∀ w, (successes hash k h).countP (fun x => x.day = w) ≤ g.rateLimit.daily) ∧
      (successes hash k h).countP (fun x => x.time ≤ t + 30 * 86400000) ≤
        30 * g.rateLimit.daily ∧
      (30 * g.rateLimit.daily ≤ g.rateLimit.monthly →
        (successes hash k h).countP (fun x => x.time ≤ t + 30 * 86400000) ≤
          g.rateLimit.monthly) := by
  have hinv := inv_run hash h hfresh
  refine ⟨fun now hvalid => ?_, fun scope => ⟨fun hscope => ?_, ?_⟩, ?_⟩
  · obtain ⟨r, hr, henabled, hexpired⟩ := exists_record_of_valid hinv hvalid
    obtain ⟨t, g, after, hissued, hsame, hdelete, hrevoke⟩ := issued_of_record hinj hfresh hr
    refine ⟨t, g, after, hissued, hrevoke henabled, hdelete, fun x hx => ?_⟩
    have hexp : r.1.expiresAt = some x := hsame.expiresAt.trans hx
    simpa [KeyMeta.expired, hexp] using hexpired
  · unfold hasScope at hscope
    cases hget : (run hash h).get (hash k) with
    | none => simp [hget] at hscope
    | some m =>
      rw [hget] at hscope
      obtain ⟨c, -, -, hr⟩ := hinv.record_of_get hget
      obtain ⟨t, g, after, hissued, hsame, hdelete, -⟩ := issued_of_record hinj hfresh hr
      have hscopes : m.scopes = g.scopes := hsame.scopes
      simp only [hscopes] at hscope
      exact ⟨t, g, after, hissued, hdelete, hscope⟩
  · rintro ⟨t, g, after, hissued, hdelete, hcovers⟩
    have hrun := record_run hinj hfresh hissued
    have hspec := recordAfter_spec k (g.keyMeta hash t, .new t) after
    cases hr : recordAfter k (g.keyMeta hash t, Counters.new t) after with
    | none =>
      rw [hr] at hspec
      obtain ⟨e, he, hdel⟩ := hspec
      exact absurd hdel (hdelete e he)
    | some r =>
      rw [hr] at hrun hspec
      have hscopes : r.1.scopes = g.scopes := hspec.1.scopes
      unfold hasScope
      simp only [(get_of_record hrun).1, hscopes]
      exact hcovers
  · intro t g after hissued
    have hacc := accounted_run hinj hfresh hord hissued
    have hcount : ∀ (opened : Success → ℤ) (p : ℤ × ℤ → Bool),
        (logOf opened (successes hash k h)).countP p =
          (successes hash k h).countP (fun x => p (x.time, opened x)) := by
      intro opened p
      rw [logOf, List.countP_map]
      rfl
    have hmonth : (successes hash k h).countP (fun x => x.time ≤ t + 30 * 86400000) ≤
        30 * g.rateLimit.daily := by
      have h := hacc.day.horizon 29
      rw [hcount] at h
      exact h
    refine ⟨fun w => ?_, fun w => ?_, hmonth, hmonth.trans⟩
    · have h := hacc.minute.window w
      rwa [hcount] at h
    · have h := hacc.day.window w
      rwa [hcount] at h

/-- A key with the given limits and expiry, and the defaults otherwise. -/
def sampleKey (rpm monthly : Option ℕ) (expiresAt : Option ℤ) : Generation :=
  ⟨"u", ⟨none, none, none, none, rpm, none, monthly, expiresAt⟩, "00", "01"⟩

theorem key_limits_second_refused :
    (successes id "pns_00" [(0, .generate (sampleKey (some 1) none none)),
      (1, .validate "pns_00"), (2, .validate "pns_00")]).countP (fun x => x.minute = 0) ≤ 1 ∧
    (successes id "pns_00" [(0, .generate (sampleKey (some 1) none none)),
      (1, .validate "pns_00"), (2, .validate "pns_00")]).length = 1 :=
  ⟨((key_limits id Function.injective_id _ (by decide +kernel) (by decide +kernel)
    "pns_00").2.2 0 (sampleKey (some 1) none none) _ ⟨by decide +kernel, [], rfl⟩).1 0,
    by decide +kernel⟩

/-- **What is not respected**: a key that was revoked has its scopes, as has a key that has
expired, which `validate` turns away; and a key with a monthly limit of 1 is admitted
twice. -/
theorem limits_not_respected :
    hasScope id "pns_00" "nodes:read" (run id [(0, .generate (sampleKey none none none)),
      (1, .revoke "key-0-01")]) = true ∧
    (validate id "pns_00" 6 (run id [(0, .generate (sampleKey none none (some 5)))])).2 =
      .invalid "key_expired" ∧
    hasScope id "pns_00" "nodes:read"
      (run id [(0, .generate (sampleKey none none (some 5))), (6, .validate "pns_00")]) = true ∧
    (successes id "pns_00" [(0, .generate (sampleKey none (some 1) none)),
      (1, .validate "pns_00"), (2, .validate "pns_00")]).length = 2 := by
  decide +kernel

end ControlPlane.ApiKeyManager
