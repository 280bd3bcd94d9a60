import Revalle.Helper.Accounting

/-!
# Requests are answered once

Over any run of a client: no request is called back twice, every session counts the requests
it has as pending, and every request whose callback data is valid is in one place. The one way
to lose a request is to close a session while it reads the reply to it.
-/

namespace Helper

open List Xaction Session Option Client

namespace Client

/-! ## The invariant -/

/-- **The invariant**, where requests may be in hand. -/
structure Inv (hand : List ℕ) (c : Client) : Prop where
  balanced : ∀ i, (viewAt c.sessions i).1 = (viewAt c.sessions i).2.toList.length
  accounted : ∀ k, c.places k + hand.count k = c.due k
  discarded : ∀ k ∈ c.discarded, k ∈ c.invalid

section Inv

variable {c c' : Client} {hand hand' : List ℕ} {i : ℕ} {srv : Session} {f : Session → Session}

theorem inv_new : Inv [] new :=
  ⟨fun _ => rfl, fun _ => rfl, nofun⟩

theorem Inv.moves (h : Inv hand c) (hm : Moves hand hand' c c') : Inv hand' c' := by
  refine ⟨fun i => by rw [hm.view, h.balanced], fun k => ?_, fun k hk => ?_⟩
  · have h1 := h.accounted k
    have h2 := hm.keys k
    omega
  · rw [hm.invalid]
    rcases hm.discarded k hk with hk | hk
    · exact h.discarded k hk
    · exact hk

/-- A session that has what it counts. -/
theorem Inv.session (h : Inv hand c) (hsrv : c.sessions[i]? = some srv) :
    srv.pending = srv.requests.length + srv.replyXaction.toList.length := by
  have hbalanced := h.balanced i
  rw [viewAt_of_some hsrv] at hbalanced
  have : (srv.pending : ℤ) - srv.requests.length = srv.replyXaction.toList.length := hbalanced
  omega

theorem Inv.modify (h : Inv hand c) (hsrv : c.sessions[i]? = some srv)
    (hbalanced : (f srv).view.1 = (f srv).view.2.toList.length)
    (hheld : ∀ k, (f srv).held k + hand'.count k = srv.held k + hand.count k) :
    Inv hand' (c.modify i f) := by
  refine ⟨fun j => ?_, fun k => ?_, h.discarded⟩
  · by_cases hj : i = j
    · rw [← hj, viewAt_modify_self hsrv, hbalanced]
    · rw [viewAt_modify_ne hj, h.balanced]
  · have h1 := places_modify hsrv f k
    have h2 := hheld k
    have h3 := h.accounted k
    show _ = c.due k
    omega

theorem modify_of_none (h : c.sessions[i]? = none) (f : Session → Session) : c.modify i f = c := by
  have hle : c.sessions.length ≤ i := getElem?_eq_none_iff.mp h
  show { c with sessions := c.sessions.modify i f } = c
  rw [modify_eq_self hle]

/-- A session keeps its place, and its view. -/
theorem Moves.session (hm : Moves hand hand' c c') (hsrv : c.sessions[i]? = some srv) :
    ∃ srv', c'.sessions[i]? = some srv' ∧ srv'.view = srv.view := by
  have hlt : i < c'.sessions.length :=
    lt_of_lt_of_le (List.getElem?_eq_some_iff.mp hsrv).1 hm.length_le
  have hsrv' := getElem?_eq_getElem hlt
  refine ⟨_, hsrv', ?_⟩
  rw [← viewAt_of_some hsrv', hm.view, viewAt_of_some hsrv]

end Inv

/-! ## Timeouts -/

section Timeouts

variable {env : Env} {fuel i : ℕ} {c c' : Client} {srv : Session}

/-- The request at the front is taken from its session. -/
theorem places_pop {r : Xaction} {rest : List Xaction} (hsrv : c.sessions[i]? = some srv)
    (hrequests : srv.requests = r :: rest) (k : ℕ) :
    (c.modify i fun srv => { srv with requests := rest }).places k + [r.key].count k =
      c.places k := by
  have hplaces := places_modify hsrv (fun srv => { srv with requests := rest }) k
  have hheld : srv.held k = [r.key].count k + (rest.map key).count k +
      (srv.replyXaction.toList.map key).count k := by
    rw [held, hrequests, map_cons, ← singleton_append, count_append]
  have hheld' : held k { srv with requests := rest } = (rest.map key).count k +
      (srv.replyXaction.toList.map key).count k := rfl
  omega

variable (hpos : 0 ≤ (viewAt c.sessions i).1)
include hpos

/-- One request that has timed out: what it is taken from and how it is counted cancel. -/
theorem moves_timedOut {r : Xaction} {rest : List Xaction} {d : Client}
    (hsrv : c.sessions[i]? = some srv) (hrequests : srv.requests = r :: rest)
    (hm : Moves [r.key] [] (c.modify i fun srv => { srv with requests := rest }) d) :
    Moves [] [] c (d.modify i fun srv =>
      { srv with pending := srv.pending - 1, timedout := srv.timedout + 1 }) := by
  have hpopped := getElem?_modify_self (f := fun srv => { srv with requests := rest }) hsrv
  obtain ⟨srv', hsrv', hview⟩ := hm.session hpopped
  rw [viewAt_of_some hsrv] at hpos
  have hpos : (0 : ℤ) ≤ srv.pending - srv.requests.length := hpos
  rw [hrequests, length_cons] at hpos
  obtain ⟨hcount, hreply⟩ := Prod.mk.inj hview
  have hcount : (srv'.pending : ℤ) - srv'.requests.length = srv.pending - rest.length := hcount
  refine ⟨fun j => ?_, ?_, fun k => ?_, hm.lost, hm.invalid, hm.discarded⟩
  · by_cases hj : i = j
    · rw [← hj, viewAt_modify_self hsrv', viewAt_of_some hsrv]
      show (((srv'.pending - 1 : ℕ) : ℤ) - srv'.requests.length, srv'.replyXaction) =
        ((srv.pending : ℤ) - srv.requests.length, srv.replyXaction)
      rw [hreply, hrequests, length_cons]
      congr 1
      omega
    · rw [viewAt_modify_ne hj, hm.view, viewAt_modify_ne hj]
  · rw [length_modify]
    exact length_modify (c := c) ▸ hm.length_le
  · have h1 := hm.keys k
    have h2 := places_pop hsrv hrequests k
    have h3 := places_modify hsrv' (fun srv =>
      { srv with pending := srv.pending - 1, timedout := srv.timedout + 1 }) k
    have h4 : held k { srv' with
        pending := srv'.pending - 1, timedout := srv'.timedout + 1 } = srv'.held k := rfl
    have h5 : (c.modify i fun srv => { srv with requests := rest }).due k = c.due k := rfl
    show _ + 0 + c.due k = _ + 0 + d.due k
    rw [count_nil] at h1
    omega

theorem moves_checkForTimedOutRequests {n : ℕ}
    (h : checkForTimedOutRequests env fuel i n c = some c') : Moves [] [] c c' := by
  induction n generalizing c with
  | zero => exact absurd h (by simp [checkForTimedOutRequests])
  | succ n ih =>
    rw [checkForTimedOutRequests] at h
    split at h
    · exact nomatch h
    · rename_i srv hsrv
      split at h
      · cases h
        exact Moves.refl _
      · rename_i r rest hrequests
        split at h
        · obtain ⟨d, hd, hrest⟩ := bind_eq_some_iff.mp h
          have hm : Moves [r.key] [] (c.modify i fun srv => { srv with requests := rest }) d := by
            split at hd
            · exact moves_submitRequest (moves_notify env fuel)
                (r := { r with retries := r.retries + 1 }) hd
            · exact moves_callBack (moves_notify env fuel)
                (r := { r with reply := timedOutReply env r.reply }) hd
          have hround := moves_timedOut hpos hsrv hrequests hm
          exact hround.trans (ih (by rw [hround.view]; exact hpos) hrest)
        · cases h
          exact Moves.refl _

theorem moves_afterReply (h : afterReply env fuel i c = some c') : Moves [] [] c c' := by
  obtain ⟨d, hd, hrest⟩ := bind_eq_some_iff.mp h
  have hcheck : Moves [] [] c d := by
    split at hd
    · exact moves_checkForTimedOutRequests hpos hd
    · cases hd
      exact Moves.refl _
  refine hcheck.trans ?_
  split at hrest
  · exact nomatch hrest
  · rename_i srv hsrv
    split at hrest
    · exact moves_helperKickQueue (moves_notify env fuel) hrest
    · split at hrest
      · cases hrest
        exact moves_modify hsrv rfl fun _ => rfl
      · cases hrest
        exact Moves.refl _

end Timeouts

/-! ## Replies -/

section Replies

variable {env : Env} {fuel i : ℕ} {c c' : Client} {srv : Session}

theorem Inv.nonneg {hand : List ℕ} (h : Inv hand c) (i : ℕ) : 0 ≤ (viewAt c.sessions i).1 := by
  rw [h.balanced i]
  exact Int.natCast_nonneg _

variable (h : Inv [] c)
include h

/-- The session is done with the reply that it read, while the request was called back, or is
in hand. -/
theorem Inv.finish {r : Xaction} {hand : List ℕ} {d e : Client} (hsrv : c.sessions[i]? = some srv)
    (hreply : srv.replyXaction = some r) (hm : Moves hand [] c d)
    (he : d.modify i (fun srv => { srv with
      pending := srv.pending - 1, replies := srv.replies + 1, replyXaction := none }) = e) :
    (∀ j, (viewAt e.sessions j).1 = (viewAt e.sessions j).2.toList.length) ∧
      ∀ k, e.places k + [r.key].count k = hand.count k + d.due k := by
  subst he
  obtain ⟨srv', hsrv', hview⟩ := hm.session hsrv
  obtain ⟨hcount, hreply'⟩ := Prod.mk.inj hview
  have hsession := h.session hsrv
  rw [hreply] at hsession hreply'
  have hone : srv.pending = srv.requests.length + 1 := hsession
  constructor
  · intro j
    by_cases hj : i = j
    · rw [← hj, viewAt_modify_self hsrv']
      show ((srv'.pending - 1 : ℕ) : ℤ) - srv'.requests.length = 0
      omega
    · rw [viewAt_modify_ne hj, hm.view, h.balanced]
  · intro k
    have h1 := hm.keys k
    have h2 := places_modify hsrv' (fun srv => { srv with
      pending := srv.pending - 1, replies := srv.replies + 1, replyXaction := none }) k
    have h3 : srv'.held k = (srv'.requests.map key).count k + [r.key].count k := by
      rw [held, hreply']
      rfl
    have h4 : held k { srv' with
        pending := srv'.pending - 1, replies := srv'.replies + 1, replyXaction := none } =
        (srv'.requests.map key).count k := rfl
    have h5 := h.accounted k
    rw [count_nil] at h1 h5
    omega

theorem Inv.returnReply {r : Xaction} (hsrv : c.sessions[i]? = some srv)
    (hreply : srv.replyXaction = some r) (hrun : returnReply env fuel i r c = some c') :
    Inv [] c' ∧ c'.lost = c.lost := by
  obtain ⟨d, hd, hrest⟩ := bind_eq_some_iff.mp hrun
  obtain ⟨e, he, hafter⟩ := bind_eq_some_iff.mp hrest
  have hkey : (if r.key ∉ c.invalid then { r with reply := env.finalize r.reply }
      else r).key = r.key := by
    split <;> rfl
  have hinv : Inv [] e ∧ e.lost = c.lost := by
    split at hd
    · -- the request is tried again
      rename_i hretry
      cases hd
      rw [if_pos hretry] at he
      obtain ⟨hbalanced, hplaces⟩ := h.finish hsrv hreply (Moves.refl c) rfl
      have hm := moves_submitRequest (moves_notify env fuel) he
      rw [hkey] at hm
      refine ⟨Inv.moves ⟨hbalanced, fun k => ?_, h.discarded⟩ hm, hm.lost⟩
      have hk := hplaces k
      exact hk.trans (Nat.zero_add _)
    · rename_i hretry
      rw [if_neg hretry] at he
      cases he
      have hm := moves_callBack (moves_notify env fuel) hd
      rw [hkey] at hm
      obtain ⟨hbalanced, hplaces⟩ := h.finish hsrv hreply hm rfl
      refine ⟨⟨hbalanced, fun k => ?_, fun k hk => ?_⟩, hm.lost⟩
      · have hk := hplaces k
        show _ = d.due k
        rw [count_nil]
        omega
      · show k ∈ d.invalid
        rw [hm.invalid]
        rcases hm.discarded k hk with hk | hk
        · exact h.discarded k hk
        · exact hk
  have hm := moves_afterReply (hinv.1.nonneg i) hafter
  exact ⟨hinv.1.moves hm, hm.lost.trans hinv.2⟩

theorem Inv.helperReturnBuffer {text : List UInt8} {ended : Bool}
    (hrun : helperReturnBuffer env fuel i text ended c = some c') :
    Inv [] c' ∧ c'.lost = c.lost := by
  unfold Client.helperReturnBuffer at hrun
  split at hrun
  · exact nomatch hrun
  · rename_i srv hsrv
    split at hrun
    · have hm := moves_afterReply (h.nonneg i) hrun
      exact ⟨h.moves hm, hm.lost⟩
    · rename_i r hreply
      split at hrun
      · cases hrun
        exact ⟨h.moves (moves_modify hsrv rfl fun _ => rfl), rfl⟩
      · rename_i other _
        -- the text is kept with the request
        have hkept : Inv [] (c.modify i fun srv => { srv with
            replyXaction := some { r with reply := { r.reply with other := other } } }) := by
          refine h.modify hsrv ?_ fun k => ?_
          · have hsession := h.session hsrv
            rw [hreply] at hsession
            have hone : srv.pending = srv.requests.length + 1 := hsession
            show (srv.pending : ℤ) - srv.requests.length = 1
            omega
          · rw [held, held, hreply]
            rfl
        split at hrun
        · exact hkept.returnReply (getElem?_modify_self hsrv) rfl hrun
        · cases hrun
          exact ⟨hkept, rfl⟩

theorem Inv.popRequest (number : ℤ) (hfree : (operations env fuel i).replying c = false) :
    Inv [] (popRequest env i number c) := by
  unfold Client.popRequest
  cases hsrv : c.sessions[i]? with
  | none =>
    rw [modify_of_none hsrv]
    exact h
  | some srv =>
    have hnone : srv.replyXaction = none := by
      have hfree : (c.sessions[i]?.any fun srv => srv.replyXaction.isSome) = false := hfree
      rw [hsrv] at hfree
      exact not_isSome_iff_eq_none.mp (by simpa using hfree)
    have hsession := h.session hsrv
    rw [hnone] at hsession
    have hpending : srv.pending = srv.requests.length := hsession
    cases hpop : popFrom env.config Xaction.id number srv.requests with
    | none =>
      refine h.modify hsrv ?_ fun k => ?_
      · rw [hpop]
        show (srv.pending : ℤ) - srv.requests.length = srv.replyXaction.toList.length
        rw [hnone, hpending]
        exact Int.sub_self _
      · rw [hpop]
    | some found =>
      obtain ⟨r, rest⟩ := found
      have hperm := popFrom_perm hpop
      refine h.modify hsrv ?_ fun k => ?_
      · rw [hpop]
        show (srv.pending : ℤ) - rest.length = 1
        rw [hpending, hperm.length_eq, length_cons]
        omega
      · rw [hpop, held, held, hnone, (hperm.map key).count_eq k,
          map_cons, ← singleton_append, count_append]
        show (rest.map key).count k + [r.key].count k + 0 =
          [r.key].count k + (rest.map key).count k + 0 + 0
        omega

theorem Inv.read {data : List UInt8} (hrun : read env fuel i data c = some c') :
    Inv [] c' ∧ c'.lost = c.lost := by
  unfold Client.read at hrun
  split at hrun
  · cases hrun
    exact ⟨h, rfl⟩
  · obtain ⟨after, hread, rfl⟩ := map_eq_some_iff.mp hrun
    have hafter : Inv [] after.2 ∧ after.2.lost = c.lost := by
      refine helperHandleRead_preserves (P := fun d => Inv [] d ∧ d.lost = c.lost) ?_ ?_ ?_
        ⟨h, rfl⟩ hread
      · exact fun number d hd hfree => ⟨hd.1.popRequest number hfree, hd.2⟩
      · intro text ended d d' hd hreturn
        obtain ⟨hinv, hlost⟩ := hd.1.helperReturnBuffer hreturn
        exact ⟨hinv, hlost.trans hd.2⟩
      · intro d hd
        refine ⟨?_, hd.2⟩
        show Inv [] (d.modify i fun srv => { srv with closing := true })
        cases hd' : d.sessions[i]? with
        | none =>
          rw [modify_of_none hd']
          exact hd.1
        | some srv => exact hd.1.moves (moves_modify hd' rfl fun _ => rfl)
    refine ⟨?_, hafter.2⟩
    cases hsrv' : after.2.sessions[i]? with
    | none =>
      rw [modify_of_none hsrv']
      exact hafter.1
    | some srv' => exact hafter.1.moves (moves_modify hsrv' rfl fun _ => rfl)

end Replies

/-! ## Closures -/

section Closures

variable {env : Env} {fuel i : ℕ} {c c' : Client} {srv : Session}

theorem moves_handleKilledServer (hsrv : c.sessions[i]? = some srv)
    (h : handleKilledServer env fuel i srv c = some c') : Moves [] [] c c' := by
  obtain ⟨d, hd, hrest⟩ := bind_eq_some_iff.mp h
  have hkilled : Moves [] [] c d := by
    split at hd
    · cases hd
      exact Moves.refl _
    · split at hd
      · exact nomatch hd
      · dsimp only at hd
        have hfewer : Moves [] [] c { c with nActive := c.nActive - 1 } :=
          moves_of_count rfl rfl rfl rfl (fun _ => .inl) fun _ => rfl
        split at hd
        · exact nomatch hd
        · split at hd
          · have hshutdown : Moves [] [] { c with nActive := c.nActive - 1 }
                ({ c with nActive := c.nActive - 1 }.modify i fun srv =>
                  { srv with shutdown := true }) :=
              moves_modify (c := { c with nActive := c.nActive - 1 }) hsrv rfl fun _ => rfl
            exact (hfewer.trans hshutdown).trans (moves_openSessions (moves_notify env fuel) hd)
          · cases hd
            exact hfewer
  refine hkilled.trans ?_
  split at hrest
  · exact moves_dropQueued (moves_notify env fuel) hrest
  · cases hrest
    exact Moves.refl _

/-- What `SessionBase::dropQueued` leaves as it was: the other sessions, and the reply that is
read. It does not count off what it drops. -/
structure Drops (i : ℕ) (c c' : Client) : Prop where
  view : ∀ j, i ≠ j → viewAt c'.sessions j = viewAt c.sessions j
  reply : (viewAt c'.sessions i).2 = (viewAt c.sessions i).2
  keys : ∀ k, c'.places k + c.due k = c.places k + c'.due k
  lost : c'.lost = c.lost
  invalid : c'.invalid = c.invalid
  discarded : ∀ k ∈ c'.discarded, k ∈ c.discarded ∨ k ∈ c.invalid

/-- The requests of the session are all dropped, so that the assertion of `~Session` holds. -/
theorem drops_dropRequests {n : ℕ} (h : dropRequests env fuel i n c = some c') :
    Drops i c c' ∧ ∃ srv, c'.sessions[i]? = some srv ∧ srv.requests = [] := by
  induction n generalizing c with
  | zero => exact absurd h (by simp [dropRequests])
  | succ n ih =>
    rw [dropRequests] at h
    split at h
    · exact nomatch h
    · rename_i srv hsrv
      split at h
      · rename_i hrequests
        cases h
        exact ⟨⟨fun _ _ => rfl, rfl, fun _ => rfl, rfl, rfl, fun _ => .inl⟩, srv, hsrv, hrequests⟩
      · rename_i r rest hrequests
        obtain ⟨d, hd, hrest⟩ := bind_eq_some_iff.mp h
        have hm : Moves [r.key] [] (c.modify i fun srv => { srv with requests := rest }) d :=
          moves_callBack (moves_notify env fuel) (r := unknown r) hd
        obtain ⟨hdrops, hempty⟩ := ih hrest
        refine ⟨⟨fun j hj => ?_, ?_, fun k => ?_, hdrops.lost.trans hm.lost,
          hdrops.invalid.trans hm.invalid, fun k hk => ?_⟩, hempty⟩
        · rw [hdrops.view j hj, hm.view, viewAt_modify_ne hj]
        · rw [hdrops.reply, hm.view, viewAt_modify_self hsrv, viewAt_of_some hsrv]
          rfl
        · have h1 := hdrops.keys k
          have h2 := hm.keys k
          have h3 := places_pop hsrv hrequests k
          have h4 : (c.modify i fun srv => { srv with requests := rest }).due k = c.due k := rfl
          rw [count_nil] at h2
          omega
        · rcases hdrops.discarded k hk with hk | hk
          · exact hm.discarded k hk
          · exact .inr (hm.invalid ▸ hk)

/-- **A session is deleted**: its requests were dropped, and a reply that it was reading is
lost. -/
theorem Inv.delete {d : Client} (h : Inv [] c) (hd : Drops i c d) (hrun : delete i d = some c') :
    Inv [] c' ∧ c'.lost = c.lost ++ (viewAt c.sessions i).2.toList.map key := by
  unfold Client.delete at hrun
  split at hrun
  · exact nomatch hrun
  · rename_i srv hsrv
    split at hrun
    · rename_i hrequests
      cases hrun
      have hreply : srv.replyXaction = (viewAt c.sessions i).2 := by
        rw [← hd.reply, viewAt_of_some hsrv]
        rfl
      refine ⟨⟨fun j => ?_, fun k => ?_, fun k hk => ?_⟩, ?_⟩
      · have hviewAt : viewAt (d.sessions.eraseIdx i) j =
            viewAt d.sessions (if j < i then j else j + 1) := by
          rw [viewAt, getElem?_eraseIdx, viewAt]
          split <;> rfl
        rw [hviewAt, hd.view _ (by split <;> omega), h.balanced]
      · have h1 := hd.keys k
        have h2 := h.accounted k
        have h3 := sum_eraseIdx (held k) hsrv
        have h4 : srv.held k = (srv.replyXaction.toList.map key).count k := by
          rw [held, hrequests]
          exact Nat.zero_add _
        rw [count_nil] at h2
        show (d.queue.map key).count k +
          ((d.sessions.eraseIdx i).map (held k)).sum + d.called.count k +
          d.discarded.count k +
          (d.lost ++ srv.replyXaction.toList.map key).count k + 0 = d.due k
        rw [count_append]
        unfold places at h1
        unfold places at h2
        omega
      · rw [hd.invalid]
        rcases hd.discarded k hk with hk | hk
        · exact h.discarded k hk
        · exact hk
      · rw [hd.lost, hreply]
    · exact nomatch hrun

theorem Inv.helperServerClosed (h : Inv [] c) (hrun : helperServerClosed env fuel i c = some c') :
    Inv [] c' ∧ c'.lost = c.lost ++ (viewAt c.sessions i).2.toList.map key := by
  unfold Client.helperServerClosed at hrun
  split at hrun
  · rename_i hnone
    cases hrun
    refine ⟨h, ?_⟩
    rw [viewAt, hnone]
    exact (append_nil _).symm
  · rename_i srv hsrv
    obtain ⟨d, hd, hrest⟩ := bind_eq_some_iff.mp hrun
    obtain ⟨e, he, hdelete⟩ := bind_eq_some_iff.mp hrest
    have hm := moves_handleKilledServer hsrv hd
    obtain ⟨hinv, hlost⟩ := (h.moves hm).delete (drops_dropRequests he).1 hdelete
    exact ⟨hinv, by rw [hlost, hm.lost, hm.view]⟩

theorem moves_shutDown (c : Client) (nActive : ℕ) :
    Moves [] [] c { c with nActive := nActive, sessions := c.sessions.map shutDown } := by
  have hview : ∀ srv : Session, (shutDown srv).view = srv.view := by
    intro srv
    unfold shutDown
    split <;> rfl
  have hheld : ∀ k (srv : Session), (shutDown srv).held k = srv.held k := by
    intro k srv
    unfold shutDown
    split <;> rfl
  refine ⟨fun i => ?_, ?_, fun k => ?_, rfl, rfl, fun _ => .inl⟩
  · rw [viewAt, viewAt, getElem?_map, Option.map_map, show view ∘ shutDown = view from funext hview]
  · rw [length_map]
  · show (c.queue.map key).count k +
      ((c.sessions.map shutDown).map (held k)).sum + c.called.count k +
      c.discarded.count k + c.lost.count k + _ + _ = _
    rw [List.map_map, show held k ∘ shutDown = held k from funext (hheld k)]
    rfl

end Closures

end Client

/-! ## Runs -/

/-- The request whose reply is being read when an event closes its session. -/
def Event.cutOff (c : Client) : Event → Option Xaction
  | .helperServerClosed i => (viewAt c.sessions i).2
  | _ => none

/-- **What an event preserves**, and the request that it loses. -/
theorem Event.run_inv {env : Env} {fuel : ℕ} {c c' : Client} {e : Event}
    (h : Client.Inv [] c) (hrun : e.run env fuel c = some c') :
    Client.Inv [] c' ∧ c'.lost = c.lost ++ (e.cutOff c).toList.map key := by
  have hmoves : ∀ {c'}, Client.Moves [] [] c c' →
      Client.Inv [] c' ∧ c'.lost = c.lost ++ [] := fun hm =>
    ⟨h.moves hm, by rw [append_nil, hm.lost]⟩
  cases e with
  | helperSubmit => exact hmoves (Client.moves_helperSubmit (Client.moves_notify env fuel) hrun)
  | read i data =>
    obtain ⟨hinv, hlost⟩ := h.read hrun
    exact ⟨hinv, by rw [hlost]; exact (append_nil _).symm⟩
  | requestTimeout i =>
    have hrun : c.requestTimeout env fuel i = some c' := hrun
    unfold Client.requestTimeout at hrun
    split at hrun
    · exact hmoves (Client.moves_checkForTimedOutRequests (h.nonneg i) hrun)
    · cases hrun
      exact hmoves (Client.Moves.refl _)
  | helperServerClosed i => exact h.helperServerClosed hrun
  | helperShutdown =>
    have hrun : c.helperShutdown env fuel = some c' := hrun
    unfold Client.helperShutdown at hrun
    split at hrun
    · exact hmoves ((Client.moves_shutDown c 0).trans
        (Client.moves_dropQueued (Client.moves_notify env fuel) hrun))
    · exact nomatch hrun
  | openSessions => exact hmoves (Client.moves_openSessions (Client.moves_notify env fuel) hrun)
  | invalidate key =>
    cases hrun
    refine ⟨⟨h.balanced, h.accounted, fun k hk => ?_⟩, (append_nil _).symm⟩
    exact mem_cons_of_mem _ (h.discarded k hk)
  | clock now =>
    cases hrun
    exact hmoves (Client.moves_of_count rfl rfl rfl rfl (fun _ => .inl) fun _ => rfl)
  | starting flag =>
    cases hrun
    exact hmoves (Client.moves_of_count rfl rfl rfl rfl (fun _ => .inl) fun _ => rfl)

/-- Two requests, of which the first is answered `1 OK`, and then the helper exits. -/
def answered : List Event :=
  [.clock 100, .openSessions, .helperSubmit, .helperSubmit,
    .read 0 [0x31, 0x20, 0x4f, 0x4b, 0x0a], .read 0 [], .clock 200, .helperServerClosed 0]

end Helper
