import Mathlib

/-!
# The choice of a stateful helper

A request without a reservation goes to the first session that is idle, not reserved
and not shutting down. If there is none, it is to take over the oldest of the
reservations that have lasted too long. The loop keeps the latest of them instead, and
it has not asked by then whether the session is shutting down (`selects_iff`).
-/

namespace Helper

/-- `helper_stateful_server`. -/
structure StatefulServer where
  index : ℕ
  pending : ℕ
  reservationId : Option ℕ
  reservationStart : ℤ
  shutdown : Bool
  deriving DecidableEq

namespace StatefulServer

open List

def reserved (srv : StatefulServer) : Bool := srv.reservationId.isSome

/-- The session takes requests. -/
def free (srv : StatefulServer) : Bool := srv.pending = 0 ∧ ¬srv.reserved ∧ ¬srv.shutdown

variable (now reservationTimeout : ℤ)

/-- The reservation of the idle session has lasted too long. -/
def expired (srv : StatefulServer) : Bool :=
  srv.pending = 0 ∧ srv.reserved ∧ now - srv.reservationStart > reservationTimeout

/-- The loop of `StatefulGetFirstAvailable`. -/
def select : Option StatefulServer → List StatefulServer → Option StatefulServer
  | oldestReservedServer, [] => oldestReservedServer
  | oldestReservedServer, srv :: servers =>
    if srv.pending ≠ 0 then select oldestReservedServer servers
    else if srv.reserved then
      if now - srv.reservationStart > reservationTimeout then
        match oldestReservedServer with
        | none => select (some srv) servers
        | some oldest =>
          if oldest.reservationStart < srv.reservationStart then select (some srv) servers
          else select (some oldest) servers
      else select oldestReservedServer servers
    else if srv.shutdown then select oldestReservedServer servers
    else some srv

/-- `StatefulGetFirstAvailable`; the servers are those that run. -/
def statefulGetFirstAvailable (servers : List StatefulServer) : Option StatefulServer :=
  if servers.length = 0 then none else select now reservationTimeout none servers

/-- The reservation may be taken over. -/
def takeable (srv : StatefulServer) : Bool := srv.expired now reservationTimeout ∧ ¬srv.shutdown

/-- **What is to be selected.** -/
def Selects (servers : List StatefulServer) (selected : Option StatefulServer) : Prop :=
  match servers.find? free with
  | some srv => selected = some srv
  | none =>
    (∀ srv ∈ selected, (srv ∈ servers ∧ srv.takeable now reservationTimeout) ∧
      ∀ other ∈ servers, other.takeable now reservationTimeout →
        srv.reservationStart ≤ other.reservationStart) ∧
    (selected = none ↔ ∀ srv ∈ servers, ¬srv.takeable now reservationTimeout)

/-- **The loop** keeps the latest reservation. -/
theorem select_eq (oldest : Option StatefulServer) (servers : List StatefulServer) :
    select now reservationTimeout oldest servers = (servers.find? free).or
      ((servers.filter (expired now reservationTimeout)).foldl
        (argAux fun srv oldest => oldest.reservationStart < srv.reservationStart) oldest) := by
  induction servers generalizing oldest with
  | nil => rfl
  | cons srv servers ih =>
    unfold select
    split_ifs with hpending hreserved hexpired hshutdown
    · simp [ih, free, expired, hpending]
    · have hbusy : ¬srv.free := by simp [free, hreserved]
      have hover : srv.expired now reservationTimeout := by simp_all [expired]
      rw [find?_cons_of_neg hbusy, filter_cons_of_pos hover, foldl_cons, ← ih]
      cases oldest with
      | none => rfl
      | some oldest => exact (apply_ite (select now reservationTimeout · servers) ..).symm
    · simp_all [free, expired]
    · simp_all [free, expired]
    · simp_all [free]

/-- **When the selection is right**: some session is free, or the latest of the expired
reservations is of a session that is not shutting down, and is the oldest of those as
well. -/
theorem selects_iff (servers : List StatefulServer) :
    Selects now reservationTimeout servers
        (statefulGetFirstAvailable now reservationTimeout servers) ↔
      (∃ srv ∈ servers, srv.free) ∨
        ∀ srv ∈ (servers.filter (expired now reservationTimeout)).argmax reservationStart,
          ¬srv.shutdown ∧ ∀ other ∈ servers, other.takeable now reservationTimeout →
            srv.reservationStart ≤ other.reservationStart := by
  have hselect : statefulGetFirstAvailable now reservationTimeout servers = (servers.find? free).or
        ((servers.filter (expired now reservationTimeout)).argmax reservationStart) := by
    unfold statefulGetFirstAvailable
    split_ifs with hservers
    · rw [eq_nil_of_length_eq_zero hservers]
      rfl
    · exact select_eq now reservationTimeout none servers
  rw [hselect, Selects]
  cases hfree : servers.find? free with
  | some srv =>
    have hmem := mem_of_find?_eq_some hfree
    exact iff_of_true rfl (.inl ⟨srv, hmem, find?_some hfree⟩)
  | none =>
    have hnone : ¬∃ srv ∈ servers, srv.free := by simpa using hfree
    rw [or_iff_right hnone]
    cases hlatest : (servers.filter (expired now reservationTimeout)).argmax reservationStart with
    | none => simp_all [takeable]
    | some srv =>
      obtain ⟨hmem, hexpired⟩ := mem_filter.mp (argmax_mem hlatest)
      constructor
      · rintro ⟨h, -⟩ _ ⟨⟩
        obtain ⟨⟨-, htakeable⟩, holdest⟩ := h srv rfl
        exact ⟨(of_decide_eq_true htakeable).2, holdest⟩
      · intro h
        obtain ⟨hshutdown, holdest⟩ := h srv rfl
        have htakeable := decide_eq_true (And.intro hexpired hshutdown)
        refine ⟨?_, iff_of_false nofun fun hnot => hnot srv hmem htakeable⟩
        rintro _ ⟨⟩
        exact ⟨⟨hmem, htakeable⟩, holdest⟩

/-- Two sessions with reservations since times `0` and `5`. -/
def reservedTwo : List StatefulServer := [⟨0, 0, some 1, 0, false⟩, ⟨1, 0, some 2, 5, false⟩]

/-- **The later reservation is taken over.** -/
theorem not_selects_latest :
    ¬Selects 100 10 reservedTwo (statefulGetFirstAvailable 100 10 reservedTwo) := by
  rintro ⟨h, -⟩
  exact absurd ((h _ rfl).2 _ mem_cons_self rfl) (by decide)

end StatefulServer

end Helper
