import Revalle.Auth.Digest

/-!
# References and replays

`Counted` says what the references of a nonce are: the cache, the requests that hold it, and those
that the running operation has in hand. No list of a user adds to them, because
`authDigestUserLinkNonce` only links a nonce that has a user already, and none ever gets one. So
`decode` attaches a nonce of the cache to a request of whoever presents it.

An operation on nonces leaves `Later` ones: they count further and become invalid, and they are not
made valid again. Hence a request that passes with a valid nonce has a count that no such request
had before, and its nonce has been fine since it was first checked. But `authenticate` does not ask
for a valid nonce when the credentials are pending, which they are for every request that is sent to
the helper, the replays among them.
-/

namespace Auth.Digest

open Checked Function List Option Bool

/-- How many requests hold a nonce. -/
def State.held (s : State) (n : ℕ) : ℕ := s.requests.countP fun q => q.any (·.nonce = some n)

/-- How many lists of users have a nonce. -/
def State.listed (s : State) (n : ℕ) : ℕ :=
  (List.range s.nextUser).countP fun u => (s.users u).any (n ∈ ·.nonces)

/-- **The references of the nonces**, with those in hand. -/
structure Counted (inHand : ℕ → ℕ) (s : State) : Prop where
  counted : ∀ n x, s.nonces n = some x → x.references = x.incache.toNat + s.held n + inHand n
  live : ∀ n, 0 < s.held n + inHand n → s.nonces n ≠ none
  cached : ∀ n, n ∈ s.cache ↔ ∃ x, s.nonces n = some x ∧ x.incache = true
  nodup : s.cache.Nodup
  unbound : ∀ n x, s.nonces n = some x → x.user = none
  unused : ∀ n, s.next ≤ n → s.nonces n = none

/-- What becomes of a nonce. -/
structure Nonce.Later (x x' : Nonce) : Prop where
  key : x'.key = x.key
  creationtime : x'.creationtime = x.creationtime
  nc : x.nc ≤ x'.nc
  valid : x'.valid = true → x.valid = true

/-- What an operation on the nonce `n` leaves. -/
structure Later (n : ℕ) (s s' : State) : Prop where
  rest : s' = { s with nonces := s'.nonces, cache := s'.cache }
  other : ∀ m, m ≠ n → s'.nonces m = s.nonces m
  nonce : ∀ x', s'.nonces n = some x' → ∃ x, s.nonces n = some x ∧ x.Later x'

theorem Nonce.Later.refl (x : Nonce) : x.Later x := ⟨rfl, rfl, Nat.le_refl _, id⟩

theorem Later.refl (n : ℕ) (s : State) : Later n s s :=
  ⟨rfl, fun _ _ => rfl, fun x h => ⟨x, h, .refl x⟩⟩

theorem Later.trans {n : ℕ} {s s' s'' : State} (h : Later n s s') (h' : Later n s' s'') :
    Later n s s'' where
  rest := by rw [h'.rest, h.rest]
  other m hm := (h'.other m hm).trans (h.other m hm)
  nonce x'' hx'' := by
    obtain ⟨x', hx', h1⟩ := h'.nonce x'' hx''
    obtain ⟨x, hx, h2⟩ := h.nonce x' hx'
    exact ⟨x, hx, h1.1.trans h2.1, h1.2.trans h2.2, Nat.le_trans h2.3 h1.3,
      fun hv => h2.4 (h1.4 hv)⟩

section

variable {e d : ℕ → ℕ} {s : State} {n : ℕ} {x y : Nonce} {cfg : Config}

theorem ensures_nonceAt {Q : Nonce → State → Prop} (hx : s.nonces n = some x) (hQ : Q x s) :
    Ensures (nonceAt n) Q s := by
  simpa [nonceAt, hx] using hQ

@[simp] theorem ensures_setNonce {Q : Unit → State → Prop} {o : Option Nonce} :
    Ensures (setNonce n o) Q s ↔ Q () { s with nonces := update s.nonces n o } :=
  ensures_modify _

theorem later_update {c : List ℕ} (hx : s.nonces n = some x) (hl : x.Later y) :
    Later n s { s with nonces := update s.nonces n (some y), cache := c } := by
  refine ⟨rfl, fun m hm => update_of_ne hm .., fun z hz => ⟨x, hx, ?_⟩⟩
  simp only [update_self, some.injEq] at hz
  exact hz ▸ hl

/-- One nonce is changed or deleted. -/
theorem Counted.replace {o : Option Nonce} {cache : List ℕ} (h : Counted e s)
    (hn : s.nonces n ≠ none) (hother : ∀ m, m ≠ n → d m = e m) (hcounted : ∀ x', o = some x' →
      x'.references = x'.incache.toNat + s.held n + d n ∧ x'.user = none)
    (hlive : 0 < s.held n + d n → o ≠ none)
    (hcache : ∀ m, m ∈ cache ↔ if m = n then ∃ x', o = some x' ∧ x'.incache = true else m ∈ s.cache)
    (hnodup : cache.Nodup) :
    Counted d { s with nonces := Function.update s.nonces n o, cache := cache } where
  counted m y hy := by
    by_cases hm : m = n
    · subst hm
      simp only [update_self] at hy
      exact (hcounted y hy).1
    · simp only [update_of_ne hm] at hy
      exact hother m hm ▸ h.counted m y hy
  live m := by
    by_cases hm : m = n
    · subst hm
      simp only [update_self]
      exact hlive
    · simp only [update_of_ne hm]
      exact hother m hm ▸ h.live m
  cached m := by
    by_cases hm : m = n
    · subst hm
      simpa using hcache m
    · simp only [update_of_ne hm, hcache m, if_neg hm, h.cached m]
  nodup := hnodup
  unbound m y hy := by
    by_cases hm : m = n
    · subst hm
      simp only [update_self] at hy
      exact (hcounted y hy).2
    · simp only [update_of_ne hm] at hy
      exact h.unbound m y hy
  unused m hm := by
    have hne : m ≠ n := fun hmn => hn (hmn ▸ h.unused m hm)
    simpa only [update_of_ne hne] using h.unused m hm

/-- A nonce changes, and a reference goes to the hand or comes from it. -/
theorem Counted.update (h : Counted e s) (hx : s.nonces n = some x)
    (hsame : y.incache = x.incache ∧ y.user = x.user) (hother : ∀ m, m ≠ n → d m = e m)
    (hhand : y.references + e n = x.references + d n) :
    Counted d { s with nonces := Function.update s.nonces n (some y) } := by
  have hcount := h.counted n x hx
  refine h.replace (by simp [hx]) hother ?_ (fun _ => by simp) (fun m => ?_) h.nodup
  · rintro _ ⟨⟩
    rw [hsame.1, hsame.2]
    exact ⟨by omega, h.unbound n x hx⟩
  · split
    · simp_all [h.cached]
    · rfl

/-- One more reference to `n` in hand. -/
def more (e : ℕ → ℕ) (n : ℕ) : ℕ → ℕ := Function.update e n (e n + 1)

theorem more_apply (m : ℕ) : more e n m = e m + if n = m then 1 else 0 := by
  by_cases hm : m = n
  · simp [more, hm]
  · simp [more, hm, Ne.symm hm]

theorem authDigestNonceLink_counted (h : Counted e s) (hx : s.nonces n = some x) :
    Ensures (authDigestNonceLink n) (fun _ s' => Counted (more e n) s' ∧ Later n s s' ∧
      s'.nonces n ≠ none) s := by
  rw [authDigestNonceLink, ensures_bind]
  refine ensures_nonceAt hx (ensures_setNonce.mpr ⟨?_,
    later_update hx ⟨rfl, rfl, Nat.le_refl _, id⟩, ?_⟩)
  · refine h.update hx ⟨rfl, rfl⟩ (fun m hm => update_of_ne hm ..) ?_
    rw [more, update_self]
    show x.references + 1 + e n = x.references + (e n + 1)
    omega
  · simp

/-- **A reference is given up**, and the nonce with it if it was the last. -/
theorem authDigestNonceUnlink_counted (h : Counted (more e n) s) :
    Ensures (authDigestNonceUnlink n) (fun _ s' => Counted e s' ∧ Later n s s') s := by
  have hone : more e n n = e n + 1 := update_self ..
  obtain ⟨x, hx⟩ := ne_none_iff_exists'.mp (h.live n (by omega))
  have href := h.counted n x hx
  have hupdate := h.update (d := e) (y := { x with references := x.references - 1 }) hx ⟨rfl, rfl⟩
    (fun m hm => (update_of_ne hm ..).symm) (by show x.references - 1 + _ = _; omega)
  rw [authDigestNonceUnlink, ensures_bind]
  refine ensures_nonceAt hx ?_
  simp only [ensures_bind, ensures_setNonce]
  split
  · rename_i hzero
    rw [authenticateDigestNonceDelete, ensures_bind]
    refine ensures_nonceAt (update_self ..) ?_
    simp only [ensures_bind, ensures_require, ensures_setNonce, update_idem]
    have hincache : x.incache = false := by
      cases hi : x.incache with
      | false => rfl
      | true => grind
    refine ⟨hzero, hincache, ?_, rfl, fun m hm => update_of_ne hm .., fun y hy => ?_⟩
    swap
    · simp at hy
    refine h.replace (by simp [hx]) (fun m hm => (update_of_ne hm ..).symm) (by simp)
      (fun hpos => by omega) (fun m => ?_) h.nodup
    split
    · simp_all [h.cached]
    · rfl
  · rw [ensures_pure]
    exact ⟨hupdate, later_update hx ⟨rfl, rfl, Nat.le_refl _, id⟩⟩

theorem authDigestNoncePurge_counted (h : Counted e s) (hx : s.nonces n = some x) :
    Ensures (authDigestNoncePurge n) (fun _ s' => Counted e s' ∧ Later n s s') s := by
  rw [authDigestNoncePurge, ensures_bind]
  refine ensures_nonceAt hx ?_
  split
  · rename_i hin
    simp only [ensures_bind, ensures_modify, ensures_setNonce]
    have hcount := h.counted n x hx
    have hpurged : Counted (more e n) { s with
        cache := s.cache.erase n
        nonces := Function.update s.nonces n (some { x with incache := false }) } := by
      refine h.replace (by simp [hx]) (fun m hm => update_of_ne hm ..) ?_ (fun _ => by simp)
        (fun m => ?_) (h.nodup.erase n)
      · rintro _ ⟨⟩
        refine ⟨?_, h.unbound n x hx⟩
        simp only [hin, toNat_true] at hcount
        simp only [more, update_self, toNat_false]
        omega
      · rw [h.nodup.mem_erase_iff]
        split <;> simp_all
    refine (authDigestNonceUnlink_counted hpurged).mono ?_
    rintro - s' ⟨hc, hl⟩
    exact ⟨hc, (later_update (y := { x with incache := false }) hx
      ⟨rfl, rfl, Nat.le_refl _, id⟩).trans hl⟩
  · exact (ensures_pure _).mpr ⟨h, .refl n s⟩

theorem Nonce.Later.stale {now now' : ℤ} (h : x.Later y) (hnow : now ≤ now')
    (hx : x.stale cfg now = true) : y.stale cfg now' = true := by
  obtain ⟨-, h1, h2, h3⟩ := h
  simp only [Nonce.stale, or_eq_true, not_eq_true', decide_eq_true_eq] at hx ⊢
  grind

/-- **The check of staleness.** -/
theorem authDigestNonceIsStale_counted (cfg : Config) (h : Counted e s) (hx : s.nonces n = some x) :
    Ensures (authDigestNonceIsStale cfg n) (fun stale s' => Counted e s' ∧ Later n s s' ∧
      stale = x.stale cfg s.now ∧ s'.nonces n = some { x with valid := !stale }) s := by
  rw [authDigestNonceIsStale, ensures_bind]
  refine ensures_nonceAt hx ?_
  simp only [ensures_bind, ensures_get, ensures_setNonce, ensures_pure]
  refine ⟨h.update hx ⟨rfl, rfl⟩ (fun _ _ => rfl) rfl,
    later_update hx ⟨rfl, rfl, Nat.le_refl _, fun hv => ?_⟩, trivial, update_self ..⟩
  simp only [Nonce.stale] at hv
  grind

/-- **The check of a count** finds what the nonce accepts. One that passes was not stale, and it has
not seen the count. -/
theorem authDigestNonceIsValid_counted (cfg : Config) {nc : ℕ} (h : Counted e s)
    (hx : s.nonces n = some x) :
    Ensures (authDigestNonceIsValid cfg n nc) (fun valid s' => Counted e s' ∧ Later n s s' ∧
      s'.nonces n ≠ none ∧ valid = x.accepts cfg s.now nc ∧
      (valid = true → x.valid = true ∧ x.stale cfg s.now = false ∧
        (cfg.checkNonceCount = true → x.nc < nc ∧
          ∀ x', s'.nonces n = some x' → x'.nc = nc))) s := by
  rw [authDigestNonceIsValid, ensures_bind]
  refine ensures_nonceAt hx ?_
  extract_lets intnc
  split
  · rename_i hvalid
    exact (ensures_pure _).mpr ⟨h, .refl n s, by simp [hx], by simp [Nonce.accepts, hvalid], nofun⟩
  split
  · rename_i hcount
    simp only [ensures_bind, ensures_setNonce, ensures_pure]
    refine ⟨h.update hx ⟨rfl, rfl⟩ (fun _ _ => rfl) rfl,
      later_update hx ⟨rfl, rfl, Nat.le_refl _, by simp⟩, by simp, ?_, by simp⟩
    simp only [Nonce.accepts]
    grind
  · rename_i hvalid hcount
    have hnc : x.nc < intnc := by omega
    have hlater : x.Later { x with nc := intnc } := ⟨rfl, rfl, Nat.le_of_lt hnc, id⟩
    simp only [ensures_bind, ensures_setNonce]
    refine (authDigestNonceIsStale_counted cfg (h.update (d := e)
      (y := { x with nc := intnc }) hx ⟨rfl, rfl⟩ (fun _ _ => rfl) rfl) (update_self ..)).mono ?_
    rintro stale s' ⟨hc, hl, hstale, hx'⟩
    rw [ensures_pure]
    refine ⟨hc, (later_update hx hlater).trans hl, by simp [hx'], ?_, fun hok =>
      ⟨by simpa using hvalid, ?_, fun hcheck => ⟨?_, fun x' h' => ?_⟩⟩⟩
    · simp only [Nonce.accepts]
      grind
    · by_contra hs
      have : Nonce.stale cfg s.now { x with nc := intnc } = true :=
        hlater.stale (Int.le_refl s.now) (by simpa using hs)
      grind
    · simpa [intnc, hcheck] using hnc
    · have : x'.nc = intnc := by grind
      simpa [intnc, hcheck] using this

end

/-! ## What holds along a run -/

/-- **The invariant.** `named` says whose names came with which nonces. -/
structure Inv (cfg : Config) (named : String → String → Prop) (inHand : ℕ → ℕ) (s : State) :
    Prop where
  counted : Counted inHand s
  lists : ∀ u y, s.users u = some y → y.nonces = []
  known : ∀ q, some q ∈ s.requests → q.nonce ≠ none → s.users q.user ≠ none
  named : ∀ q n x, some q ∈ s.requests → q.nonce = some n → s.nonces n = some x →
    named x.key q.username
  stale : ∀ q n x, some q ∈ s.requests → q.nonce = some n → s.nonces n = some x →
    q.wasStale = true → x.stale cfg s.now = true
  issued : ∀ v ∈ s.passed, v.nonce < s.next
  sound : ∀ v ∈ s.passed, (v.valid = false → v.pending = true) ∧
    (v.valid = true → v.wasStale = false)
  counts : cfg.checkNonceCount = true → ∀ v ∈ s.passed, v.valid = true →
    ∀ x, s.nonces v.nonce = some x → x.valid = true → v.nc ≤ x.nc
  distinct : cfg.checkNonceCount = true → s.passed.Pairwise fun v w =>
    v.valid = true → w.valid = true → v.nonce = w.nonce → v.nc ≠ w.nc

section

variable {cfg : Config} {P : String → String → Prop} {e d : ℕ → ℕ} {s s' : State} {n r : ℕ}
  {q : UserRequest}

/-- An operation on a nonce keeps the invariant. -/
theorem Inv.later (h : Inv cfg P e s) (hl : Later n s s') (hc : Counted d s') : Inv cfg P d s' := by
  have hnonce : ∀ m x', s'.nonces m = some x' → ∃ x, s.nonces m = some x ∧ x.Later x' := by
    intro m x' hx'
    by_cases hm : m = n
    · subst hm
      exact hl.nonce x' hx'
    · exact ⟨x', hl.other m hm ▸ hx', .refl x'⟩
  rw [hl.rest] at hc ⊢
  refine { h with
    counted := hc
    named := fun q m x' hq hm hx' => ?_
    stale := fun q m x' hq hm hx' hs => ?_
    counts := fun hcheck v hv hvalid x' hx' hvalid' => ?_ }
  · obtain ⟨x, hx, hlater⟩ := hnonce m x' hx'
    exact hlater.key ▸ h.named q m x hq hm hx
  · obtain ⟨x, hx, hlater⟩ := hnonce m x' hx'
    exact hlater.stale (Int.le_refl _) (h.stale q m x hq hm hx hs)
  · obtain ⟨x, hx, hlater⟩ := hnonce v.nonce x' hx'
    exact Nat.le_trans (h.counts hcheck v hv hvalid x hx (hlater.valid hvalid')) hlater.nc

theorem authDigestNonceUserUnlink_unbound {x : Nonce} {Q : Unit → State → Prop}
    (hx : s.nonces n = some x) (hu : x.user = none) (hQ : Q () s) :
    Ensures (authDigestNonceUserUnlink n) Q s := by
  rw [authDigestNonceUserUnlink, ensures_bind]
  refine ensures_nonceAt hx ?_
  rw [hu]
  exact (ensures_pure _).mpr hQ

theorem cleanupLoop_inv : ∀ {ns : List ℕ} {s : State}, Inv cfg P e s → ns.Nodup →
    (∀ n ∈ ns, n ∈ s.cache) → Ensures (cleanupLoop cfg ns) (fun _ => Inv cfg P e) s
  | [], _, h, _, _ => (ensures_pure _).mpr h
  | n :: ns, s, h, hnodup, hcached => by
    obtain ⟨x, hx, hin⟩ := (h.counted.cached n).mp (hcached n mem_cons_self)
    -- the rest stays in the cache, for only `n` changes
    have hrest : ∀ {s'}, Later n s s' → Counted e s' →
        Ensures (cleanupLoop cfg ns) (fun _ => Inv cfg P e) s' := by
      intro s' hl hc
      refine cleanupLoop_inv (h.later hl hc) hnodup.of_cons fun m hm => ?_
      have hne : m ≠ n := fun hmn => (nodup_cons.mp hnodup).1 (hmn ▸ hm)
      rw [hc.cached, hl.other m hne, ← h.counted.cached]
      exact hcached m (mem_cons_of_mem n hm)
    rw [cleanupLoop, ensures_bind]
    refine (authDigestNonceIsStale_counted cfg h.counted hx).mono ?_
    rintro stale s1 ⟨hc1, hl1, -, hx1⟩
    split
    · rw [ensures_bind]
      refine ensures_nonceAt hx1 ?_
      simp only [ensures_bind, ensures_require, ensures_setNonce]
      have hc2 := hc1.update (y := { x with valid := false }) hx1 ⟨rfl, rfl⟩ (fun _ _ => rfl) rfl
      refine ⟨hin, ?_⟩
      refine authDigestNonceUserUnlink_unbound (update_self ..) (h.counted.unbound n x hx) ?_
      rw [ensures_bind]
      refine (authDigestNoncePurge_counted hc2 (update_self ..)).mono ?_
      rintro - s3 ⟨hc3, hl3⟩
      have hl2 := later_update (y := { x with valid := false }) (c := s1.cache) hx1
        ⟨rfl, rfl, Nat.le_refl _, by simp⟩
      exact hrest ((hl1.trans hl2).trans hl3) hc3
    · exact hrest hl1 hc1

theorem State.held_pos (hq : some q ∈ s.requests) (hn : q.nonce = some n) : 0 < s.held n :=
  countP_pos_iff.mpr ⟨some q, hq, by simpa using hn⟩

theorem Inv.live (h : Inv cfg P e s) (hq : some q ∈ s.requests) (hn : q.nonce = some n) :
    ∃ x, s.nonces n = some x :=
  ne_none_iff_exists'.mp (h.counted.live n (Nat.add_pos_left (State.held_pos hq hn) _))

theorem authenticateDigestNonceNew_inv (keys : List String) (h : Inv cfg P e s) :
    Ensures (authenticateDigestNonceNew keys) (fun _ => Inv cfg P e) s := by
  rw [authenticateDigestNonceNew, ensures_modify]
  split
  swap
  · exact h
  rename_i key _
  have hnone : s.nonces s.next = none := h.counted.unused s.next (Nat.le_refl _)
  have hheld : s.held s.next + e s.next = 0 := by
    have := h.counted.live s.next
    grind
  have hold : ∀ q n x, some q ∈ s.requests → q.nonce = some n →
      update s.nonces s.next (some ⟨key, s.now, 0, 1, none, true, true⟩) n = some x →
      s.nonces n = some x := by
    intro q n x hq hn hx
    have := State.held_pos hq hn
    grind
  refine ⟨⟨fun m x hx => ?_, fun m hm => ?_, fun m => ?_, ?_, fun m x hx => ?_, fun m hm => ?_⟩,
    h.lists, h.known, fun q n x hq hn hx => h.named q n x hq hn (hold q n x hq hn hx),
    fun q n x hq hn hx => h.stale q n x hq hn (hold q n x hq hn hx), fun v hv => ?_, h.sound,
    fun hcheck v hv hvalid x hx => ?_, h.distinct⟩
  · have := h.counted.counted m x
    grind [State.held]
  · have := h.counted.live m hm
    grind
  · by_cases hm : m = s.next
    · simp [hm]
    · simp [hm, h.counted.cached m]
  · have := h.counted.cached s.next
    exact nodup_cons.mpr ⟨by grind, h.counted.nodup⟩
  · have := h.counted.unbound m x
    grind
  · have := h.counted.unused m
    grind
  · exact Nat.lt_succ_of_lt (h.issued v hv)
  · have := h.issued v hv
    exact h.counts hcheck v hv hvalid x (by grind)

section

variable (h : Inv cfg P e s)
include h

/-- A user changes, or one that no request has goes. -/
theorem Inv.setUser {u k : ℕ} {o : Option User} (hlists : ∀ y, o = some y → y.nonces = [])
    (hknown : o = none → ∀ q, some q ∈ s.requests → q.user ≠ u) :
    Inv cfg P e { s with users := update s.users u o, nextUser := k } := by
  refine { h with counted := { h.1 with }, lists := ?_, known := ?_ }
  · intro v y hy
    have := h.lists v y
    grind
  · intro q hq hn
    have := h.known q hq hn
    grind

/-- The requests change, and with them what is in hand. -/
theorem Inv.requests {l : List (Option UserRequest)}
    (hheld : ∀ m, State.held { s with requests := l } m + d m = s.held m + e m)
    (hl : ∀ q, some q ∈ l → some q ∈ s.requests ∨ (q.nonce ≠ none → s.users q.user ≠ none) ∧
      ∀ n x, q.nonce = some n → s.nonces n = some x →
        P x.key q.username ∧ (q.wasStale = true → x.stale cfg s.now = true)) :
    Inv cfg P d { s with requests := l } := by
  refine { h with counted := ⟨fun m x hx => ?_, fun m => ?_, h.1.3, h.1.4, h.1.5, h.1.6⟩,
                  known := fun q hq hn => ?_, named := fun q n x hq hn hx => ?_,
                  stale := fun q n x hq hn hx => ?_ }
  · rw [Nat.add_assoc, hheld m, ← Nat.add_assoc]
    exact h.counted.counted m x hx
  · rw [hheld m]
    exact h.counted.live m
  · exact (hl q hq).elim (fun hq => h.known q hq hn) fun hnew => hnew.1 hn
  · exact (hl q hq).elim (fun hq => h.named q n x hq hn hx) fun hnew => (hnew.2 n x hn hx).1
  · exact (hl q hq).elim (fun hq => h.stale q n x hq hn hx) fun hnew => (hnew.2 n x hn hx).2

/-- A request is added, with a reference that was in hand. -/
theorem addRequest_inv {c : Credentials} {o : Option ℕ} {u : ℕ}
    (he : ∀ m, e m = d m + if o = some m then 1 else 0) (hu : o ≠ none → s.users u ≠ none)
    (hnamed : ∀ m x, o = some m → s.nonces m = some x → P x.key c.username) :
    Ensures (addRequest c o u) (fun _ => Inv cfg P d) s := by
  rw [addRequest, ensures_modify]
  refine h.requests (fun m => ?_) fun q hq => ?_
  · rw [State.held, countP_append, he m]
    simp [State.held, countP_cons]
    omega
  · refine (mem_append.mp hq).imp_right fun hq => ?_
    obtain rfl := some.inj (mem_singleton.mp hq)
    exact ⟨hu, fun m x hm hx => ⟨hnamed m x hm hx, nofun⟩⟩

/-- The request `r` changes or goes. -/
theorem Inv.setRequest {o : Option UserRequest} (hr : s.requests[r]? = some (some q))
    (he : ∀ m, d m + (if o.any (·.nonce = some m) then 1 else 0) =
      e m + if q.nonce = some m then 1 else 0)
    (ho : ∀ q', o = some q' → q'.user = q.user ∧ q'.nonce = q.nonce ∧ q'.username = q.username ∧
      (q'.wasStale = true → ∀ n x, q.nonce = some n → s.nonces n = some x →
        x.stale cfg s.now = true)) : Inv cfg P d { s with requests := s.requests.set r o } := by
  have hmem : some q ∈ s.requests := mem_of_getElem? hr
  obtain ⟨hlt, hget⟩ := List.getElem?_eq_some_iff.mp hr
  refine h.requests (fun m => ?_) fun q' hq' => ?_
  · have hpos : q.nonce = some m → 0 < s.held m := State.held_pos hmem
    rw [State.held, countP_set hlt, hget]
    simp only [State.held, any_some, decide_eq_true_eq] at hpos ⊢
    grind
  · refine (mem_or_eq_of_mem_set hq').imp_right fun hq' => ?_
    obtain ⟨huser, hnonce, hname, hstale⟩ := ho q' hq'.symm
    rw [huser, hnonce, hname]
    exact ⟨h.known q hmem, fun n x hn hx =>
      ⟨h.named q n x hmem hn hx, fun hs => hstale hs n x hn hx⟩⟩

end

theorem decode_inv (c : Credentials) (h : Inv cfg P (fun _ => 0) s)
    (hnamed : P c.noncehex c.username) :
    Ensures (decode c) (fun _ => Inv cfg P fun _ => 0) s := by
  rw [decode]
  simp only [ensures_bind, ensures_get]
  split
  · simp only [authDigestLogUsername, ensures_bind, ensures_get, ensures_modify]
    have hnext : Inv cfg P (fun _ => 0) { s with nextUser := s.nextUser + 1 } :=
      { h with counted := { h.counted with } }
    exact addRequest_inv hnext (fun m => by simp) (by simp) (by simp)
  · rename_i n hfind
    obtain ⟨x, hx, -⟩ := (h.counted.cached n).mp (mem_of_find?_eq_some hfind)
    have hkey : x.key = c.noncehex := by simpa [hx] using find?_some hfind
    rw [ensures_bind]
    refine ensures_nonceAt hx ?_
    simp only [h.counted.unbound n x hx, attach, ensures_bind]
    refine (authDigestNonceLink_counted h.counted hx).mono ?_
    rintro - s₁ ⟨hc, hl, hlive⟩
    have h₁ := h.later hl hc
    have hadd : ∀ {s' : State} {u : ℕ}, Inv cfg P (more (fun _ => 0) n) s' →
        s'.nonces = s₁.nonces → s'.users u ≠ none →
        Ensures (addRequest c (some n) u) (fun _ => Inv cfg P fun _ => 0) s' := by
      intro s' u h' hnonces hu
      refine addRequest_inv h' (fun m => ?_) (fun _ => hu) ?_
      · simp [more_apply]
      · rintro _ y ⟨⟩ hy
        obtain ⟨x', hx', hlater⟩ := hl.nonce y (hnonces ▸ hy)
        have : x' = x := by grind
        rw [hlater.key, this, hkey]
        exact hnamed
    simp only [ensures_bind, ensures_get]
    split
    · obtain ⟨y, hy⟩ := Option.ne_none_iff_exists'.mp hlive
      simp only [ensures_bind, ensures_modify, authDigestUserLinkNonce]
      refine ensures_nonceAt hy ?_
      rw [if_pos (hc.unbound n y hy), ensures_pure]
      refine hadd ?_ rfl (by simp)
      exact h₁.setUser (by simp) (by simp)
    · rename_i u hu
      obtain ⟨y, hy⟩ : ∃ y, s₁.users u = some y := by
        have := find?_some hu
        simp_all [Option.any_eq_true]
        grind
      rw [ensures_bind, userAt]
      simp only [ensures_bind, ensures_get, hy, ensures_pure, Digest.setUser, ensures_modify]
      exact hadd (h₁.setUser (by simpa using h₁.lists u y hy) (by simp)) rfl (by simp)

/-- What the check of a request knows of it. -/
structure Checking (cfg : Config) (s : State) (r n : ℕ) (q : UserRequest) : Prop where
  request : ∃ q₀, s.requests[r]? = some (some q₀) ∧ q.user = q₀.user ∧ q.nonce = q₀.nonce ∧
    q.username = q₀.username
  nonce : q.nonce = some n
  stale : q.wasStale = true → ∀ x, s.nonces n = some x → x.stale cfg s.now = true

section

variable (hk : Checking cfg s r n q)
include hk

theorem Checking.set {t : State} (h : Inv cfg P e t)
    (ht : t.requests = s.requests ∧ t.nonces = s.nonces ∧ t.now = s.now) {q' : UserRequest}
    (hq' : q'.user = q.user ∧ q'.nonce = q.nonce ∧ q'.username = q.username ∧
      q'.wasStale = q.wasStale) :
    Inv cfg P e { t with requests := t.requests.set r (some q') } := by
  obtain ⟨q₀, hr, h1, h2, h3⟩ := hk.request
  rw [← ht.1] at hr
  refine h.setRequest hr (fun m => ?_) ?_
  · simp [hq'.2.1, h2]
  · rintro _ ⟨⟩
    have := hk.stale
    have := hk.nonce
    grind

theorem Checking.user (h : Inv cfg P e s) : ∃ y, s.users q.user = some y := by
  obtain ⟨q₀, hr, h1, h2, -⟩ := hk.request
  rw [h1]
  refine ne_none_iff_exists'.mp (h.known q₀ (mem_of_getElem? hr) ?_)
  simp [← h2, hk.nonce]

theorem Checking.live (h : Inv cfg P e s) : ∃ x, s.nonces n = some x := by
  obtain ⟨q₀, hr, -, h2, -⟩ := hk.request
  exact h.live (mem_of_getElem? hr) (h2 ▸ hk.nonce)

theorem Checking.later (hl : Later n s s') : Checking cfg s' r n q := by
  obtain ⟨hrequests, hnow⟩ : s'.requests = s.requests ∧ s'.now = s.now := by
    rw [hl.rest]
    exact ⟨rfl, rfl⟩
  refine ⟨hrequests ▸ hk.request, hk.nonce, fun hs x' hx' => ?_⟩
  obtain ⟨x, hx, hlater⟩ := hl.nonce x' hx'
  exact hlater.stale (Int.le_of_eq hnow.symm) (hk.stale hs x hx)

theorem leave_inv {y : User} {credentials : CredentialState} (h : Inv cfg P e s)
    (hy : y.nonces = []) : Ensures (leave r q y credentials) (fun _ => Inv cfg P e) s := by
  simp only [leave, Digest.setUser, Digest.setRequest, ensures_bind, ensures_modify]
  have h' := h.setUser (u := q.user) (k := s.nextUser)
    (o := some { y with credentials := credentials }) (by simpa using hy) (by simp)
  exact hk.set h' ⟨rfl, rfl, rfl⟩ ⟨rfl, rfl, rfl, rfl⟩

/-- **The check of the nonce**: a request that passes with a valid one has a new count. -/
theorem checkNonce_inv {y : User} (h : Inv cfg P e s) (hy : y.nonces = []) : Ensures
    (checkNonce cfg r q y n) (fun _ => Inv cfg P e) s := by
  obtain ⟨x, hx⟩ := hk.live h
  rw [checkNonce, ensures_bind]
  refine ensures_nonceAt hx ?_
  simp only [ensures_bind, ensures_get]
  refine (authDigestNonceIsValid_counted cfg h.counted hx).mono ?_
  rintro valid s1 ⟨hc1, hl1, hlive, haccepts, hvalid⟩
  rw [← haccepts]
  have h1 := h.later hl1 hc1
  have hk1 := hk.later hl1
  obtain ⟨x1, hx1⟩ := ne_none_iff_exists'.mp hlive
  have hset : ∀ credentials, Inv cfg P e { s1 with
      users := update s1.users q.user (some { y with credentials := credentials }) } :=
    fun credentials => h1.setUser (by simpa using hy) (by simp)
  split
  · simp only [Digest.setUser, ensures_bind, ensures_modify]
    refine ensures_nonceAt hx1 ?_
    simp only [ensures_setNonce, ensures_bind]
    have hc2 := (hset .pending).counted.update (y := { x1 with valid := false }) hx1 ⟨rfl, rfl⟩
      (fun _ _ => rfl) rfl
    refine (authDigestNoncePurge_counted hc2 (update_self ..)).mono ?_
    rintro - s3 ⟨hc3, hl3⟩
    have hl := (later_update (s := { s1 with
      users := update s1.users q.user (some { y with credentials := .pending }) })
      (y := { x1 with valid := false }) hx1 ⟨rfl, rfl, Nat.le_refl _, by simp⟩).trans hl3
    have hk2 : Checking cfg { s1 with
        users := update s1.users q.user (some { y with credentials := .pending }) } r n q :=
      ⟨hk1.request, hk1.nonce, hk1.stale⟩
    rw [Digest.setRequest, ensures_modify]
    exact (hk2.later hl).set ((hset .pending).later hl hc3) ⟨rfl, rfl, rfl⟩ ⟨rfl, rfl, rfl, rfl⟩
  · rename_i hpass
    simp only [Digest.setUser, Digest.setRequest, ensures_bind, ensures_modify]
    refine hk1.set (t := { s1 with
      users := update s1.users q.user (some { y with credentials := .ok })
      passed := ⟨r, n, q.nc, valid, y.credentials = .pending, q.wasStale⟩ :: s1.passed })
      ?_ ⟨rfl, rfl, rfl⟩ ⟨rfl, rfl, rfl, rfl⟩
    refine { hset .ok with
      counted := { hc1 with }
      issued := forall_mem_cons.mpr ⟨?_, h1.issued⟩
      sound := forall_mem_cons.mpr ⟨⟨fun hv => ?_, fun hv => ?_⟩, h1.sound⟩
      counts := fun hcheck => forall_mem_cons.mpr ⟨fun hv x' hx' _ => ?_, h1.counts hcheck⟩
      distinct := fun hcheck => pairwise_cons.mpr ⟨fun w hw hv hw' hn => ?_, h1.distinct hcheck⟩ }
    · by_contra hnext
      exact hlive (hc1.unused n (Nat.le_of_not_lt hnext))
    · have hv : valid = false := hv
      simpa [hv] using hpass
    · have hstale := hk.stale
      grind
    · exact Nat.le_of_eq (((hvalid hv).2.2 hcheck).2 x' hx').symm
    · have hw : w ∈ s.passed := by
        rw [hl1.rest] at hw
        exact hw
      obtain ⟨hvalid0, -, hcount⟩ := hvalid hv
      have hle := h.counts hcheck w hw hw' x (hn ▸ hx) hvalid0
      exact Nat.ne_of_gt (Nat.lt_of_le_of_lt hle (hcount hcheck).1)

theorem authenticate_inv (h : Inv cfg P e s) : Ensures (authenticate cfg r q n)
    (fun _ => Inv cfg P e) s := by
  obtain ⟨y, hy⟩ := hk.user h
  have hlist := h.lists q.user y hy
  rw [authenticate, ensures_bind, userAt]
  simp only [ensures_bind, ensures_get, hy, ensures_pure]
  split
  · exact leave_inv hk h hlist
  split
  · exact leave_inv hk h hlist
  split
  · exact leave_inv (q := { q with helper_queried := true })
      ⟨hk.request, hk.nonce, hk.stale⟩ h hlist
  split
  · exact leave_inv hk h hlist
  · exact checkNonce_inv hk h hlist

end

theorem withRequest_inv {phase : Phase} {f : UserRequest → ℕ → Run Unit} (h : Inv cfg P e s)
    (hf : ∀ q n, s.requests[r]? = some (some q) → q.nonce = some n →
      Ensures (f q n) (fun _ => Inv cfg P e) s) :
    Ensures (withRequest r phase f) (fun _ => Inv cfg P e) s := by
  rw [withRequest]
  simp only [ensures_bind, ensures_get]
  split
  · rename_i q hq
    split
    · split
      · exact hf q _ (join_eq_some_iff.mp hq) ‹_›
      · exact (ensures_pure _).mpr h
    · exact (ensures_pure _).mpr h
  · exact (ensures_pure _).mpr h

/-- **Every event keeps the invariant**, and none of them fails. -/
theorem perform_inv (event : Event) (h : Inv cfg P (fun _ => 0) s)
    (hnamed : ∀ c, event = .decode c → P c.noncehex c.username) :
    Ensures (perform cfg event) (fun _ => Inv cfg P fun _ => 0) s := by
  cases event with
  | tick seconds =>
    rw [perform, ensures_modify]
    refine { h with
      counted := { h.1 with }
      stale := fun q n x hq hn hx hs => (Nonce.Later.refl x).stale ?_ (h.stale q n x hq hn hx hs) }
    exact Int.le_add_of_nonneg_right (Int.natCast_nonneg seconds)
  | new keys => exact authenticateDigestNonceNew_inv keys h
  | decode c => exact decode_inv c h (hnamed c rfl)
  | authenticate r =>
    refine withRequest_inv h fun q n hr hn => ?_
    have hq : some q ∈ s.requests := mem_of_getElem? hr
    obtain ⟨x, hx⟩ := h.live hq hn
    rw [firstCheck, ensures_bind]
    refine ensures_nonceAt hx ?_
    simp only [ensures_bind, ensures_get]
    exact authenticate_inv ⟨⟨q, hr, rfl, rfl, rfl⟩, hn, by simp [hx]⟩ h
  | handleReply r =>
    refine withRequest_inv h fun q n hr hn => ?_
    have hq : some q ∈ s.requests := mem_of_getElem? hr
    have hk : Checking cfg s r n q := ⟨⟨q, hr, rfl, rfl, rfl⟩, hn, fun hs x hx =>
      h.stale q n x hq hn hx hs⟩
    obtain ⟨y, hy⟩ := hk.user h
    rw [handleReply, ensures_bind, userAt]
    simp only [ensures_bind, ensures_get, hy, ensures_pure, Digest.setUser, ensures_modify]
    exact authenticate_inv ⟨hk.request, hk.nonce, hk.stale⟩
      (h.setUser (by simpa using h.lists q.user y hy) (by simp))
  | destroyRequest r =>
    rw [perform]
    simp only [ensures_bind, ensures_get]
    split
    · rename_i q hq
      have hr := join_eq_some_iff.mp hq
      simp only [destroyRequest, Digest.setRequest, ensures_bind, ensures_modify]
      split
      · rename_i n hn
        have h' := h.setRequest (d := more (fun _ => 0) n) (o := none) hr
          (by simp [more_apply, hn]) (by simp)
        refine (authDigestNonceUnlink_counted h'.counted).mono ?_
        rintro - s' ⟨hc, hl⟩
        exact h'.later hl hc
      · rename_i hn
        exact (ensures_pure _).mpr (h.setRequest hr (by simp [hn]) (by simp))
    · exact (ensures_pure _).mpr h
  | cleanup =>
    exact cleanupLoop_inv h h.counted.nodup fun _ hn => hn
  | destroyUser u =>
    rw [perform]
    simp only [ensures_bind, ensures_get]
    split
    · rename_i y hy
      split
      · rename_i hfree
        simp only [h.lists u y hy, unlinkAll, ensures_bind, ensures_pure, Digest.setUser,
          ensures_modify]
        refine h.setUser (by simp) fun _ q hq => ?_
        simpa using all_eq_true.mp hfree (some q) hq
      · exact (ensures_pure _).mpr h
    · exact (ensures_pure _).mpr h

theorem run_inv : ∀ (es : List Event) {s : State}, Inv cfg P (fun _ => 0) s →
    (∀ c, Event.decode c ∈ es → P c.noncehex c.username) →
    Ensures (run cfg es) (fun _ => Inv cfg P fun _ => 0) s
  | [], _, h, _ => (ensures_pure _).mpr h
  | event :: es, _, h, hnamed => by
    rw [run, ensures_bind]
    refine (perform_inv event h fun c hc => hnamed c (hc ▸ mem_cons_self)).mono ?_
    exact fun _ _ h' => run_inv es h' fun c hc => hnamed c (mem_cons_of_mem event hc)

theorem inv_new : Inv cfg P (fun _ => 0) State.new := by
  refine ⟨⟨?_, ?_, ?_, ?_, ?_, ?_⟩, ?_, ?_, ?_, ?_, ?_, ?_, ?_, ?_⟩ <;> simp [State.new, State.held]

end

/-! ## The nonces of requests -/

/-- **Every reference is accounted for**, and the requests with a nonce have one name if it is only
presented with one. -/
theorem references_counted (cfg : Config) (es : List Event) (owner : String → String) :
    Ensures (run cfg es) (fun _ s =>
      (∀ n x, s.nonces n = some x →
        x.references = (if n ∈ s.cache then 1 else 0) + s.held n + s.listed n) ∧
      ((∀ c, Event.decode c ∈ es → c.username = owner c.noncehex) →
        ∀ q n x, some q ∈ s.requests → q.nonce = some n → s.nonces n = some x →
          q.username = owner x.key)) State.new := by
  refine (run_inv (P := fun key username => (∀ c, Event.decode c ∈ es →
    c.username = owner c.noncehex) → username = owner key) es inv_new fun c hc h => h c hc).mono ?_
  rintro - s h
  refine ⟨fun n x hx => ?_, fun howner q n x hq hn hx => h.named q n x hq hn hx howner⟩
  have hlisted : s.listed n = 0 := by
    refine List.countP_eq_zero.mpr fun u _ => ?_
    cases hy : s.users u with
    | none => simp
    | some y => simp [h.lists u y hy]
  have hcached := h.counted.cached n
  have hcounted := h.counted.counted n x hx
  cases hin : x.incache <;> simp_all

/-- Alice and Bob get one nonce. -/
theorem nonce_of_two_users :
    (run ⟨1800, 50, true, true, false⟩ [.new ["a1b2"], .decode ⟨"alice", "a1b2", 1, true, true⟩,
      .decode ⟨"bob", "a1b2", 1, true, true⟩] State.new).map (fun (_, s) =>
        (s.cache, s.requests.map (·.map fun q => (q.username, q.nonce)))) =
      some ([0], [some ("alice", some 0), some ("bob", some 0)]) := by
  decide +kernel

/-- **A request that passes with a valid nonce is no replay**, and its nonce was not stale. Without
one it passes when the credentials were pending. -/
theorem valid_passed_once (cfg : Config) (hcheck : cfg.checkNonceCount = true) (es : List Event) :
    Ensures (run cfg es) (fun _ s =>
      (∀ v ∈ s.passed, v.valid = false → v.pending = true) ∧
      s.passed.Pairwise (fun v w => v.valid = true → w.valid = true → v.nonce = w.nonce →
        v.nc ≠ w.nc) ∧
      ∀ v ∈ s.passed, v.valid = true → v.wasStale = false) State.new :=
  (run_inv (P := fun _ _ => True) es inv_new fun _ _ => trivial).mono fun _ _ h =>
    ⟨fun v hv => (h.sound v hv).1, h.distinct hcheck, fun v hv => (h.sound v hv).2⟩

/-- Bob uses a nonce with the counts 1 and 2. -/
def countToTwo : List Event :=
  [.new ["a1b2"], .decode ⟨"bob", "a1b2", 1, true, true⟩, .authenticate 0, .handleReply 0,
    .decode ⟨"bob", "a1b2", 2, true, true⟩, .authenticate 1]

theorem valid_passed_once_bob : Ensures (run ⟨1800, 50, true, true, false⟩ countToTwo) (fun _ s =>
    s.passed.map (fun v => (v.request, v.nonce, v.nc, v.valid)) =
      [(1, 0, 2, true), (0, 0, 1, true)] ∧
    s.passed.Pairwise (fun v w => v.valid = true → w.valid = true → v.nonce = w.nonce →
      v.nc ≠ w.nc)) State.new := by
  obtain ⟨a, s, hrun, -, hpairs, -⟩ :=
    valid_passed_once ⟨1800, 50, true, true, false⟩ rfl countToTwo
  have hpassed : (run ⟨1800, 50, true, true, false⟩ countToTwo State.new).map
      (fun (_, s) => s.passed.map fun v => (v.request, v.nonce, v.nc, v.valid)) =
      some [(1, 0, 2, true), (0, 0, 1, true)] := by
    decide +kernel
  rw [hrun] at hpassed
  exact ⟨a, s, hrun, some.inj hpassed, hpairs⟩

/-- A replay passes, and so does a request whose nonce was too old. -/
theorem replay_passes :
    (run ⟨1800, 50, true, true, false⟩ [.new ["a1b2"], .decode ⟨"bob", "a1b2", 1, true, true⟩,
      .authenticate 0, .handleReply 0, .decode ⟨"bob", "a1b2", 1, true, true⟩, .authenticate 1,
      .handleReply 1] State.new).map (fun (_, s) =>
        s.passed.map fun v => (v.request, v.nonce, v.nc)) = some [(1, 0, 1), (0, 0, 1)] ∧
    (run ⟨1800, 50, true, true, false⟩ [.new ["a1b2"], .decode ⟨"bob", "a1b2", 1, true, true⟩,
      .tick 2000, .authenticate 0, .handleReply 0] State.new).map (fun (_, s) =>
        s.passed.map fun v => (v.request, v.wasStale)) = some [(0, true)] := by
  decide +kernel

end Auth.Digest
