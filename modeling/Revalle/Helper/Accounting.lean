import Revalle.Helper.Client

/-!
# Where the requests are

Every request that was submitted is in one place: the queue, the list of a session, the reply
that a session reads, or among those that were called back, discarded or lost. `places` counts
in how many places a request is. While a function runs, it may have requests in hand: `Moves`
says that it took the requests in hand to places, and no others, and that it left the
sessions alone, as far as their pending requests are those they have (`view`).
-/

namespace Helper

open List Xaction Option

/-! ## Places -/

/-- How often a session has a request. -/
def Session.held (k : ℕ) (srv : Session) : ℕ :=
  (srv.requests.map Xaction.key).count k + (srv.replyXaction.toList.map Xaction.key).count k

/-- How many requests are pending beyond those in the list, and the reply that is read. -/
def Session.view (srv : Session) : ℤ × Option Xaction :=
  (srv.pending - srv.requests.length, srv.replyXaction)

def viewAt (sessions : List Session) (i : ℕ) : ℤ × Option Xaction :=
  (sessions[i]?.map Session.view).getD (0, none)

namespace Client

/-- In how many places a request is. -/
def places (c : Client) (k : ℕ) : ℕ :=
  (c.queue.map Xaction.key).count k + (c.sessions.map (Session.held k)).sum + c.called.count k +
    c.discarded.count k + c.lost.count k

/-- In how many places it should be. -/
def due (c : Client) (k : ℕ) : ℕ := if k < c.submitted then 1 else 0

/-- **Requests are moved**, where those in `hand` are in hand before, and those in `hand'`
after. -/
structure Moves (hand hand' : List ℕ) (c c' : Client) : Prop where
  view : ∀ i, viewAt c'.sessions i = viewAt c.sessions i
  length_le : c.sessions.length ≤ c'.sessions.length
  keys : ∀ k, c'.places k + hand'.count k + c.due k = c.places k + hand.count k + c'.due k
  lost : c'.lost = c.lost
  invalid : c'.invalid = c.invalid
  discarded : ∀ k ∈ c'.discarded, k ∈ c.discarded ∨ k ∈ c.invalid

section Moves

variable {c c' c'' : Client} {hand hand' hand'' : List ℕ}

theorem Moves.refl (c : Client) : Moves hand hand c c :=
  ⟨fun _ => rfl, le_rfl, fun _ => rfl, rfl, rfl, fun _ => .inl⟩

theorem Moves.trans (h : Moves hand hand' c c') (h' : Moves hand' hand'' c' c'') :
    Moves hand hand'' c c'' := by
  refine ⟨fun i => (h'.view i).trans (h.view i), h.length_le.trans h'.length_le, fun k => ?_,
    h'.lost.trans h.lost, h'.invalid.trans h.invalid, fun k hk => ?_⟩
  · have h1 := h.keys k
    have h2 := h'.keys k
    omega
  · rcases h'.discarded k hk with hk | hk
    · exact h.discarded k hk
    · exact .inr (h.invalid ▸ hk)

/-- A change that leaves the sessions alone. -/
theorem moves_of_count (hsessions : c'.sessions = c.sessions)
    (hsubmitted : c'.submitted = c.submitted) (hinvalid : c'.invalid = c.invalid)
    (hlost : c'.lost = c.lost) (hdiscarded : ∀ k ∈ c'.discarded, k ∈ c.discarded ∨ k ∈ c.invalid)
    (hcount : ∀ k, (c'.queue.map key).count k + c'.called.count k +
      c'.discarded.count k + hand'.count k = (c.queue.map key).count k +
      c.called.count k + c.discarded.count k + hand.count k) : Moves hand hand' c c' := by
  refine ⟨fun i => by rw [hsessions], Nat.le_of_eq (by rw [hsessions]), fun k => ?_, hlost,
    hinvalid, hdiscarded⟩
  have hk := hcount k
  rw [places, places, due, due, hsessions, hlost, hsubmitted]
  omega

/-- A request in hand is discarded. -/
theorem moves_discard {k : ℕ} (h : k ∈ c.invalid) :
    Moves [k] [] c { c with discarded := c.discarded ++ [k] } := by
  refine moves_of_count rfl rfl rfl rfl ?_ fun x => ?_
  · exact forall_mem_append.mpr ⟨fun _ => .inl, forall_mem_singleton.mpr (.inr h)⟩
  · show (c.queue.map key).count x + c.called.count x + (c.discarded ++ [k]).count x + 0 =
      (c.queue.map key).count x + c.called.count x + c.discarded.count x + [k].count x
    rw [count_append]
    omega

end Moves

open Moves

/-! ## One session -/

section Modify

variable {c : Client} {i : ℕ} {srv : Session} {f : Session → Session}

theorem getElem?_modify_self (h : c.sessions[i]? = some srv) :
    (c.modify i f).sessions[i]? = some (f srv) := by
  show (c.sessions.modify i f)[i]? = _
  rw [getElem?_modify_eq, h]
  rfl

theorem getElem?_modify_ne {j : ℕ} (h : i ≠ j) : (c.modify i f).sessions[j]? = c.sessions[j]? := by
  show (c.sessions.modify i f)[j]? = _
  rw [List.getElem?_modify_ne _ _ h]

theorem viewAt_modify_self (h : c.sessions[i]? = some srv) :
    viewAt (c.modify i f).sessions i = (f srv).view := by
  rw [viewAt, getElem?_modify_self h]
  rfl

theorem viewAt_modify_ne {j : ℕ} (h : i ≠ j) :
    viewAt (c.modify i f).sessions j = viewAt c.sessions j := by
  rw [viewAt, getElem?_modify_ne h, viewAt]

theorem viewAt_of_some (h : c.sessions[i]? = some srv) : viewAt c.sessions i = srv.view := by
  rw [viewAt, h]
  rfl

theorem length_modify : (c.modify i f).sessions.length = c.sessions.length :=
  List.length_modify ..

theorem sum_eraseIdx (g : Session → ℕ) {l : List Session} {i : ℕ} (h : l[i]? = some srv) :
    ((l.eraseIdx i).map g).sum + g srv = (l.map g).sum := by
  obtain ⟨hi, rfl⟩ := List.getElem?_eq_some_iff.mp h
  rw [← ((getElem_cons_eraseIdx_perm hi).map g).sum_eq, map_cons, sum_cons, add_comm]

theorem sum_modify (g : Session → ℕ) (f : Session → Session) {l : List Session} {i : ℕ}
    (h : l[i]? = some srv) : ((l.modify i f).map g).sum + g srv = (l.map g).sum + g (f srv) := by
  have hmodify := sum_eraseIdx g (show (l.modify i f)[i]? = some (f srv) by simp [h])
  have herase : (l.modify i f).eraseIdx i = l.eraseIdx i := by
    refine ext_getElem? fun j => ?_
    grind
  have hsum := sum_eraseIdx g h
  rw [herase] at hmodify
  omega

/-- What a change of a session does to the places. -/
theorem places_modify (h : c.sessions[i]? = some srv) (f : Session → Session) (k : ℕ) :
    (c.modify i f).places k + srv.held k = c.places k + (f srv).held k := by
  have hsum := sum_modify (Session.held k) f h
  unfold places
  show (c.queue.map key).count k + ((c.sessions.modify i f).map (Session.held k)).sum +
    c.called.count k + c.discarded.count k + c.lost.count k + _ = _
  omega

/-- A change of a session that takes requests in hand to it, or from it. -/
theorem moves_modify {hand hand' : List ℕ} (h : c.sessions[i]? = some srv)
    (hview : (f srv).view = srv.view)
    (hheld : ∀ k, (f srv).held k + hand'.count k = srv.held k + hand.count k) :
    Moves hand hand' c (c.modify i f) := by
  refine ⟨fun j => ?_, Nat.le_of_eq length_modify.symm, fun k => ?_, rfl, rfl, fun _ => .inl⟩
  · by_cases hj : i = j
    · rw [← hj, viewAt_modify_self h, viewAt_of_some h, hview]
    · exact viewAt_modify_ne hj
  · have hplaces := places_modify h f k
    have hhand := hheld k
    show _ + _ + c.due k = _ + _ + c.due k
    omega

end Modify

/-! ## Dispatch -/

section Dispatch

variable {env : Env} {c : Client}

theorem select_some {sessions : List Session} {i j pending : ℕ} {selected : Option (ℕ × ℕ)}
    (h : select sessions i selected = some (j, pending)) :
    selected = some (j, pending) ∨ i ≤ j ∧ j < i + sessions.length := by
  induction sessions generalizing i selected with
  | nil => exact .inl h
  | cons srv sessions ih =>
    have hstep : ∀ {sel}, select sessions (i + 1) sel = some (j, pending) →
        sel = some (j, pending) ∨ i ≤ j ∧ j < i + (srv :: sessions).length := by
      intro sel hsel
      rw [length_cons]
      exact (ih hsel).imp_right (by omega)
    have hhere : i ≤ i ∧ i < i + (srv :: sessions).length := ⟨le_rfl, by simp⟩
    rw [select] at h
    split at h
    · exact hstep h
    · split at h
      · exact hstep h
      · split at h
        · cases h
          exact .inr hhere
        · split at h
          · cases h
            exact .inr hhere
          · rcases hstep h with hsel | hsel
            · cases hsel
              exact .inr hhere
            · exact .inr hsel

/-- The session that is selected exists. -/
theorem getFirstAvailable_some {i : ℕ} (h : getFirstAvailable env c = some i) :
    ∃ srv, c.sessions[i]? = some srv := by
  unfold getFirstAvailable at h
  split at h
  · exact nomatch h
  · rename_i j pending hselect
    generalize (if env.concurrency = 0 then 1 else env.concurrency) = limit at h
    split at h
    · exact nomatch h
    · cases h
      rcases select_some hselect with hnone | ⟨-, hj⟩
      · exact nomatch hnone
      · exact ⟨_, getElem?_eq_getElem (by omega)⟩

theorem moves_helperDispatch {i : ℕ} {srv : Session} (h : c.sessions[i]? = some srv)
    (r : Xaction) : Moves [r.key] [] c (helperDispatch i r c) := by
  unfold helperDispatch
  split
  · rename_i hinvalid
    have hmodify : Moves [r.key] [r.key] c (c.modify i fun srv =>
        { srv with nextRequestId := (srv.nextRequestId + 1) % 2 ^ 64 }) :=
      moves_modify h rfl fun _ => rfl
    exact hmodify.trans (moves_discard hinvalid)
  · refine moves_modify h ?_ fun k => ?_
    · show (((srv.pending + 1 : ℕ) : ℤ) - ((srv.requests ++ [_]).length : ℤ), _) = _
      rw [length_append, length_singleton, Session.view]
      congr 1
      omega
    · show ((srv.requests ++ [_]).map key).count k + (srv.replyXaction.toList.map key).count k + 0 =
        (srv.requests.map key).count k + (srv.replyXaction.toList.map key).count k + [r.key].count k
      rw [map_append, count_append]
      show _ + [r.key].count k + _ + 0 = _
      omega

/-- A request is taken from the queue. -/
theorem moves_nextRequest {r : Xaction} {rest : List Xaction} (h : c.queue = r :: rest) :
    Moves [] [r.key] c { c with queue := rest } := by
  refine moves_of_count rfl rfl rfl rfl (fun _ => .inl) fun k => ?_
  show (rest.map key).count k + c.called.count k + c.discarded.count k + [r.key].count k =
    (c.queue.map key).count k + c.called.count k + c.discarded.count k + 0
  rw [h]
  show _ = ([r.key] ++ rest.map key).count k + _ + _ + 0
  rw [count_append]
  omega

variable (env) in
theorem moves_dispatchQueued (n : ℕ) : Moves [] [] c (dispatchQueued env n c) := by
  induction n generalizing c with
  | zero => exact refl c
  | succ n ih =>
    rw [dispatchQueued]
    split
    · rename_i i r rest havailable hqueue
      obtain ⟨srv, hsrv⟩ := getFirstAvailable_some havailable
      have hdispatch : Moves [r.key] [] { c with queue := rest }
          (helperDispatch i r { c with queue := rest }) :=
        moves_helperDispatch (c := { c with queue := rest }) hsrv r
      exact ((moves_nextRequest hqueue).trans hdispatch).trans ih
    · exact refl c

theorem viewAt_append_new (sessions : List Session) (i : ℕ) :
    viewAt (sessions ++ [Session.new]) i = viewAt sessions i := by
  unfold viewAt
  rcases Nat.lt_trichotomy i sessions.length with hi | hi | hi
  · rw [getElem?_append_left hi]
  · rw [hi, getElem?_concat_length, getElem?_eq_none (le_rfl)]
    rfl
  · rw [getElem?_eq_none (by rw [length_append, length_singleton]; omega),
      getElem?_eq_none (Nat.le_of_lt hi)]

variable (env) in
theorem moves_startSessions (k : ℕ) : Moves [] [] c (startSessions env k c) := by
  induction k generalizing c with
  | zero => exact refl c
  | succ k ih =>
    rw [startSessions]
    split
    · refine trans ?_ ih
      refine ⟨viewAt_append_new c.sessions, ?_, fun k => ?_, rfl, rfl, fun _ => .inl⟩
      · rw [length_append]
        omega
      · show (c.queue.map key).count k +
            ((c.sessions ++ [Session.new]).map (Session.held k)).sum + c.called.count k +
            c.discarded.count k + c.lost.count k + _ + _ = _
        rw [map_append, sum_append]
        rfl
    · refine trans ?_ ih
      exact moves_of_count rfl rfl rfl rfl (fun _ => .inl) fun _ => rfl

theorem moves_syncQueueStats : Moves [] [] c (syncQueueStats env c) := by
  unfold syncQueueStats
  split
  · split
    · exact moves_of_count rfl rfl rfl rfl (fun _ => .inl) fun _ => rfl
    · exact refl c
  · exact moves_of_count rfl rfl rfl rfl (fun _ => .inl) fun _ => rfl

end Dispatch

/-! ## Submission -/

section Submission

variable {env : Env} {fuel : ℕ} {notify : ℕ → Reply → Client → Option Client} {c c' : Client}
  (hnotify : ∀ key reply c c', notify key reply c = some c' → Moves [key] [] c c')

include hnotify

theorem moves_callBack {r : Xaction} (h : callBack notify r c = some c') :
    Moves [r.key] [] c c' := by
  unfold callBack at h
  split at h
  · rename_i hinvalid
    cases h
    exact moves_discard hinvalid
  · exact hnotify _ _ _ _ h

theorem moves_dropAll {n : ℕ} (h : dropAll notify n c = some c') : Moves [] [] c c' := by
  induction n generalizing c with
  | zero => exact absurd h (by simp [dropAll])
  | succ n ih =>
    rw [dropAll] at h
    split at h
    · cases h
      exact refl _
    · rename_i r rest hqueue
      obtain ⟨d, hcall, hrest⟩ := bind_eq_some_iff.mp h
      have hcalled : Moves [r.key] [] { c with queue := rest } d :=
        moves_callBack hnotify (r := unknown r) hcall
      exact ((moves_nextRequest hqueue).trans hcalled).trans (ih hrest)

theorem moves_dropQueued (h : dropQueued env fuel notify c = some c') : Moves [] [] c c' := by
  unfold dropQueued at h
  split at h
  · cases h
    exact refl c
  · split at h
    · exact moves_dropAll hnotify h
    · exact nomatch h

theorem moves_helperKickQueue (h : helperKickQueue env fuel notify c = some c') :
    Moves [] [] c c' := by
  unfold helperKickQueue at h
  refine (moves_dispatchQueued env c.queue.length).trans ?_
  dsimp only at h
  split at h
  · exact moves_dropQueued hnotify h
  · cases h
    exact refl _

theorem moves_openSessions (h : openSessions env fuel notify c = some c') : Moves [] [] c c' := by
  unfold openSessions at h
  dsimp only at h
  split at h
  · exact nomatch h
  · refine (moves_startSessions env (needNew env c).toNat).trans ?_
    refine trans ?_ (moves_helperKickQueue hnotify h)
    exact moves_of_count rfl rfl rfl rfl (fun _ => .inl) fun _ => rfl

theorem moves_enqueue {r : Xaction} (h : enqueue env fuel notify r c = some c') :
    Moves [r.key] [] c c' := by
  have hpush : Moves [r.key] [] c { c with queue := c.queue ++ [r] } := by
    refine moves_of_count rfl rfl rfl rfl (fun _ => .inl) fun k => ?_
    show ((c.queue ++ [r]).map key).count k + c.called.count k + c.discarded.count k + 0 =
      (c.queue.map key).count k + c.called.count k + c.discarded.count k + [r.key].count k
    rw [map_append, count_append]
    show _ + [r.key].count k + _ + _ + 0 = _
    omega
  unfold enqueue at h
  dsimp only at h
  split at h
  · exact hpush.trans (moves_openSessions hnotify h)
  · cases h
    exact hpush

theorem moves_submitRequest {r : Xaction} (h : submitRequest env fuel notify r c = some c') :
    Moves [r.key] [] c c' := by
  obtain ⟨d, hd, rfl⟩ := map_eq_some_iff.mp h
  refine trans ?_ moves_syncQueueStats
  split at hd
  · rename_i i havailable
    obtain ⟨srv, hsrv⟩ := getFirstAvailable_some havailable
    cases hd
    exact moves_helperDispatch hsrv r
  · exact moves_enqueue hnotify hd

theorem moves_helperSubmit (h : helperSubmit env fuel notify c = some c') : Moves [] [] c c' := by
  have hnew : ∀ d : Client, Moves [] [d.submitted] d { d with submitted := d.submitted + 1 } := by
    intro d
    refine ⟨fun _ => rfl, le_rfl, fun k => ?_, rfl, rfl, fun _ => .inl⟩
    show d.places k + [d.submitted].count k + (if k < d.submitted then 1 else 0) =
      d.places k + 0 + (if k < d.submitted + 1 then 1 else 0)
    rw [count_singleton]
    simp only [beq_iff_eq]
    split <;> split <;> split <;> omega
  have hsubmitted : (syncQueueStats env c).submitted = c.submitted := by
    unfold syncQueueStats
    split
    · split <;> rfl
    · rfl
  have hstart : Moves [] [c.submitted] c
      { syncQueueStats env c with submitted := c.submitted + 1 } := by
    rw [← hsubmitted]
    exact moves_syncQueueStats.trans (hnew (syncQueueStats env c))
  unfold helperSubmit at h
  dsimp only at h
  split at h
  · exact nomatch h
  · exact hstart.trans (moves_submitRequest hnotify h)
  · exact hstart.trans (hnotify _ _ _ _ h)

theorem moves_submitMany {n : ℕ} (h : submitMany env fuel notify n c = some c') :
    Moves [] [] c c' := by
  induction n generalizing c with
  | zero =>
    cases h
    exact refl _
  | succ n ih =>
    obtain ⟨d, hd, hrest⟩ := bind_eq_some_iff.mp h
    exact (moves_helperSubmit hnotify hd).trans (ih hrest)

end Submission

/-- **A callback moves one request**, the one that is called back, whatever it submits and
whatever is called back meanwhile. -/
theorem moves_notify (env : Env) (fuel key : ℕ) (reply : Reply) (c c' : Client)
    (h : notify env fuel key reply c = some c') : Moves [key] [] c c' := by
  induction fuel generalizing key reply c c' with
  | zero => exact absurd h (by simp [notify])
  | succ fuel ih =>
    refine trans ?_ (moves_submitMany ih h)
    refine moves_of_count rfl rfl rfl rfl (fun _ => .inl) fun k => ?_
    show (c.queue.map Xaction.key).count k + (c.called ++ [key]).count k + c.discarded.count k + 0 =
      (c.queue.map Xaction.key).count k + c.called.count k + c.discarded.count k + [key].count k
    rw [count_append]
    omega

end Client

end Helper
