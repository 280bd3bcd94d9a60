import Revalle.Ipc.Queue

/-!
# No wakeup is lost

A reader that finds nothing to pop goes to sleep and relies on being
notified. A writer notifies it only when three things come together: its
queue was empty, the reader was blocked, and nobody had signalled before.
Each of the three is read at another instant, the two flags are shared by
all queues, and a `pop` from one queue unblocks the reader that a `pop` from
another has blocked. So the argument is about a whole round of the reader.

The phase of a popping reader is the set of the queues it has found empty
since it last blocked itself. Taking an item empties that set, because it
unblocks the reader; a `pop` that finds nothing adds a queue to it, and the
test that counts is the second one, made after the block. As long as a queue
is in the set, whoever makes it non-empty will find the reader blocked
(`Alert.seen`), and a signal that is raised comes with a notification
(`Alert.signal`). A round that ends without an item has visited every queue
(`Remotes.exists_iterate_next`), wherever it started, and that is what is
left when the reader is idle.
-/

namespace Ipc

open Shm Function Prog OneToOneUniQueue QueueReader Option

/-! ## The round of the reader -/

namespace Remotes

variable (r : Remotes)

/-- The numbers of the remote processes. -/
def ids : Set ℕ :=
  {id | r.remotesIdOffset ≤ id ∧ id < r.remotesIdOffset + r.remotesCount}

/-- The remote processes are visited in turn. -/
theorem iterate_next {m : ℕ} (hm : m < r.remotesCount) (i : ℕ) :
    r.next^[i] (r.remotesIdOffset + m) = r.remotesIdOffset + (m + i) % r.remotesCount := by
  induction i with
  | zero => rw [iterate_zero_apply, Nat.add_zero, Nat.mod_eq_of_lt hm]
  | succ i ih =>
    have hlt := Nat.mod_lt (m + i) (Nat.zero_lt_of_lt hm)
    rw [iterate_succ_apply', ih, next, ← Nat.add_assoc m i 1]
    rw [← Nat.mod_add_mod (m + i) r.remotesCount 1]
    by_cases he : (m + i) % r.remotesCount + 1 = r.remotesCount
    · rw [if_pos (by omega), he, Nat.mod_self, Nat.add_zero]
    · rw [if_neg (by omega), Nat.mod_eq_of_lt (a := (m + i) % _ + 1) (by omega), Nat.add_assoc]

/-- **One round visits all of them**, wherever it starts. -/
theorem exists_iterate_next {last id : ℕ} (h : r.remotesIdOffset ≤ last + 1) (hid : id ∈ r.ids) :
    ∃ i < r.remotesCount, r.next^[i + 1] last = id := by
  obtain ⟨h1, h2⟩ := hid
  have hpos : 0 < r.remotesCount := by omega
  obtain ⟨m, hm, hnext⟩ : ∃ m < r.remotesCount, r.next last = r.remotesIdOffset + m := by
    unfold next
    split
    · exact ⟨0, hpos, rfl⟩
    · exact ⟨last + 1 - r.remotesIdOffset, by omega, by omega⟩
  refine ⟨(id - r.remotesIdOffset + (r.remotesCount - m)) % r.remotesCount, Nat.mod_lt _ hpos, ?_⟩
  rw [iterate_succ_apply, hnext, iterate_next r hm, Nat.add_mod_mod,
    show m + (id - r.remotesIdOffset + (r.remotesCount - m))
      = id - r.remotesIdOffset + r.remotesCount by omega,
    Nat.add_mod_right, Nat.mod_eq_of_lt (by omega)]
  omega

end Remotes

namespace BaseMultiQueue

/-! ## The invariant -/

/-- What a process has under way. -/
inductive Phase where
  /-- Nothing that matters to others. -/
  | quiet
  /-- A writer has found its queue empty and is about to signal. -/
  | raising
  /-- A writer has signalled and is about to notify. -/
  | notifying
  /-- The reader is about to clear its signals. -/
  | clearing
  /-- The reader is popping. It may have blocked itself, and has found some of
  its queues empty since. -/
  | popping (blocked : Bool) (checked : Set ℕ)

/-- **What holds while the reader is popping**, and when it has popped
everything. -/
structure Alert (s : MultiQueue) (writers : ℕ → Phase) (blocked : Bool) (checked : Set ℕ) :
    Prop where
  /-- A signal comes with a notification. -/
  signal : s.localReader.popSignal = true →
    (∃ id, writers id = .notifying) ∨ ∃ id, 0 < s.inFlight id
  popBlocked : blocked = true → s.localReader.popBlocked = true
  blocked_of_checked : checked.Nonempty → blocked = true
  /-- Whoever pushes to a queue that was found empty signals. -/
  seen : ∀ id ∈ checked, (s.inQueue id).theSize ≠ 0 →
    s.localReader.popSignal = true ∨ writers id = .raising

/-- What the phase of the reader promises while it is inside an operation. -/
def Watch (s : MultiQueue) (writers : ℕ → Phase) : Phase → Prop
  | .popping blocked checked => Alert s writers blocked checked
  | _ => True

theorem Watch.imp {s s' : MultiQueue} {writers writers' : ℕ → Phase} {φ : Phase}
    (h : ∀ blocked checked, Alert s writers blocked checked → Alert s' writers' blocked checked)
    (hw : Watch s writers φ) : Watch s' writers' φ := by
  cases φ with
  | popping blocked checked => exact h blocked checked hw
  | _ => trivial

/-- **The invariant of a reader and its writers.** -/
structure Inv (r : Remotes) (s : MultiQueue) (o : Party → Outline Local) (φs : Party → Phase) :
    Prop where
  /-- The reader is inside an operation. -/
  busy : (o .reader).busy = true → Watch s (fun id => φs (.remote id)) (φs .reader)
  /-- The reader is idle after `pop` has returned false. -/
  idle : (o .reader).busy = false → (o .reader).held.drained = true →
    ∃ blocked, Alert s (fun id => φs (.remote id)) blocked r.ids
  writers : ∀ id, φs (.remote id) ≠ .quiet → (o (.remote id)).busy = true
  last : r.remotesIdOffset ≤ (o .reader).held.theLastPopProcessId + 1

/-- The invariant as a protocol. -/
def protocol (r : Remotes) : Protocol MultiQueue Party Local Phase where
  Inv := Inv r
  Ok _ := True

/-! ## Accesses -/

section

variable {r : Remotes} {α : Type} {h : Local} {φ : Phase} {Q : α → Phase → Prop}
  {upd : MultiQueue → MultiQueue} {k : MultiQueue → Prog MultiQueue α} {id : ℕ}

/-- The rule of an access of the reader. -/
theorem safe_reader (hstep : ∀ s writers, Watch s writers φ → ∃ φ', Watch (upd s) writers φ'
      ∧ (protocol r).SafeIn .reader h (k s) φ' Q) :
    (protocol r).SafeIn .reader h (.act upd k) φ Q := by
  intro s o φs hI _ ho hφ
  have hb : (o .reader).busy = true := by rw [ho]
  obtain ⟨φ', hw, hk⟩ := hstep s _ (hφ ▸ hI.busy hb)
  refine ⟨φ', { hI with
    busy := fun _ => ?_
    idle := fun h => absurd hb (by rw [h]; exact nofun) }, hk⟩
  exact hw

/-- The rule of an access of a writer: it must do no harm to what the reader
counts on. -/
theorem safe_writer (hstep : ∀ s writers, writers id = φ → ∃ φ',
      (∀ blocked checked, Alert s writers blocked checked →
        Alert (upd s) (update writers id φ') blocked checked)
      ∧ (protocol r).SafeIn (.remote id) h (k s) φ' Q) :
    (protocol r).SafeIn (.remote id) h (.act upd k) φ Q := by
  intro s o φs hI _ ho hφ
  obtain ⟨φ', hw, hk⟩ := hstep s (fun id => φs (.remote id)) hφ
  have hphase : (fun id' => update φs (.remote id) φ' (.remote id'))
      = update (fun id => φs (.remote id)) id φ' :=
    update_comp_eq_of_injective φs (fun _ _ => Party.remote.inj) id φ'
  refine ⟨φ', ⟨fun hb => ?_, fun hb hd => ?_, fun id' hid' => ?_, hI.last⟩, hk⟩
  · rw [hphase, update_of_ne (by exact Party.noConfusion)]
    exact (hI.busy hb).imp hw
  · rw [hphase]
    obtain ⟨b, ha⟩ := hI.idle hb hd
    exact ⟨b, hw _ _ ha⟩
  · by_cases hid : id' = id
    · rw [hid, ho]
    · rw [update_of_ne fun h => hid (Party.remote.inj h)] at hid'
      exact hI.writers id' hid'

end

/-! ## What each access does -/

namespace Alert

variable {s s' : MultiQueue} {writers : ℕ → Phase} {b : Bool} {C : Set ℕ} {id : ℕ}

/-- An access that changes no flag, no size and no notification. -/
theorem keep (ha : Alert s writers b C) (hr : s'.localReader = s.localReader)
    (hf : s'.inFlight = s.inFlight)
    (hs : ∀ id, (s'.inQueue id).theSize = (s.inQueue id).theSize) : Alert s' writers b C where
  signal := by
    rw [hr, hf]
    exact ha.signal
  popBlocked := by
    rw [hr]
    exact ha.popBlocked
  blocked_of_checked := ha.blocked_of_checked
  seen := by
    intro id hid
    rw [hr, hs]
    exact ha.seen id hid

/-- Before any queue is checked only the signal matters. -/
theorem unchecked (h : s.localReader.popSignal = true →
    (∃ id, writers id = .notifying) ∨ ∃ id, 0 < s.inFlight id) : Alert s writers false ∅ where
  signal := h
  popBlocked h := nomatch h
  blocked_of_checked h := (Set.not_nonempty_empty h).elim
  seen _ h := h.elim

/-- The reader blocks itself. -/
theorem block (ha : Alert s writers b C) (hr : s'.localReader = ⟨true, s.localReader.popSignal⟩)
    (hf : s'.inFlight = s.inFlight)
    (hs : ∀ id, (s'.inQueue id).theSize = (s.inQueue id).theSize) : Alert s' writers true C where
  signal := by
    rw [hr, hf]
    exact ha.signal
  popBlocked _ := by rw [hr]
  blocked_of_checked _ := rfl
  seen := by
    intro id hid
    rw [hr, hs]
    exact ha.seen id hid

/-- Fewer queues may be considered. -/
theorem anti {C' : Set ℕ} (ha : Alert s writers b C) (hC : C' ⊆ C) : Alert s writers b C' where
  signal := ha.signal
  popBlocked := ha.popBlocked
  blocked_of_checked h := ha.blocked_of_checked (h.mono hC)
  seen id hid := ha.seen id (hC hid)

/-- The reader finds a queue empty while it is blocked. -/
theorem check (ha : Alert s writers true C) (hz : (s.inQueue id).theSize = 0) :
    Alert s writers true (insert id C) where
  signal := ha.signal
  popBlocked := ha.popBlocked
  blocked_of_checked _ := rfl
  seen := by
    rintro j (rfl | hj) hne
    · exact absurd hz hne
    · exact ha.seen j hj hne

variable (ha : Alert s writers b C)
include ha

/-- Which writers are about to notify, after one of them that was not has
changed its phase. -/
theorem signal_update (hn : writers id ≠ .notifying) (φ : Phase)
    (h : s.localReader.popSignal = true) :
    (∃ j, update writers id φ j = .notifying) ∨ ∃ j, 0 < s.inFlight j := by
  refine (ha.signal h).imp_left ?_
  rintro ⟨j, hj⟩
  have hji : j ≠ id := fun h => hn (h ▸ hj)
  exact ⟨j, by rw [update_of_ne hji]; exact hj⟩

/-- `theSize++`: a writer that finds its queue empty is going to signal. -/
theorem publish (hφ : writers id = .quiet) (hr : s'.localReader = s.localReader)
    (hf : s'.inFlight = s.inFlight)
    (hs : ∀ j ≠ id, (s'.inQueue j).theSize = (s.inQueue j).theSize) :
    Alert s' (update writers id
      (if (s.inQueue id).theSize = 0 then .raising else .quiet)) b C where
  signal := by
    rw [hr, hf]
    exact ha.signal_update (by rw [hφ]; exact Phase.noConfusion) _
  popBlocked := by
    rw [hr]
    exact ha.popBlocked
  blocked_of_checked := ha.blocked_of_checked
  seen := by
    intro j hj hne
    rw [hr]
    by_cases hji : j = id
    · subst hji
      rw [update_self]
      split
      · exact .inr rfl
      · rename_i hz
        refine (ha.seen j hj hz).imp_right fun h => ?_
        rw [hφ] at h
        cases h
    · rw [update_of_ne hji]
      rw [hs j hji] at hne
      exact ha.seen j hj hne

/-- A writer that finds the reader not blocked need not signal. -/
theorem unblocked (hφ : writers id = .raising) (hb : s.localReader.popBlocked = false) :
    Alert s (update writers id .quiet) b C where
  signal := ha.signal_update (by rw [hφ]; exact Phase.noConfusion) _
  popBlocked := ha.popBlocked
  blocked_of_checked := ha.blocked_of_checked
  seen := by
    intro j hj hne
    -- the reader would be blocked if it had checked anything
    have := ha.popBlocked (ha.blocked_of_checked ⟨j, hj⟩)
    rw [hb] at this
    cases this

/-- `popSignal.exchange(true)`: the first to signal is going to notify. -/
theorem exchange (hφ : writers id = .raising)
    (hr : s'.localReader = ⟨s.localReader.popBlocked, true⟩) (hf : s'.inFlight = s.inFlight) :
    Alert s' (update writers id (if s.localReader.popSignal then .quiet else .notifying)) b C where
  signal _ := by
    rw [hf]
    by_cases hs : s.localReader.popSignal = true
    · exact ha.signal_update (by rw [hφ]; exact Phase.noConfusion) _ hs
    · rw [if_neg hs]
      exact .inl ⟨id, update_self ..⟩
  popBlocked := by
    rw [hr]
    exact ha.popBlocked
  blocked_of_checked := ha.blocked_of_checked
  seen _ _ _ := by
    rw [hr]
    exact .inl rfl

/-- A notification is sent. -/
theorem notify (hφ : writers id = .notifying) (hr : s'.localReader = s.localReader)
    (hq : s'.inQueue = s.inQueue) (hf : 0 < s'.inFlight id) :
    Alert s' (update writers id .quiet) b C where
  signal _ := .inr ⟨id, hf⟩
  popBlocked := by
    rw [hr]
    exact ha.popBlocked
  blocked_of_checked := ha.blocked_of_checked
  seen := by
    intro j hj hne
    rw [hr]
    rw [hq] at hne
    refine (ha.seen j hj hne).imp_right fun h => ?_
    rw [update_of_ne]
    · exact h
    · rintro rfl
      rw [hφ] at h
      cases h

end Alert

/-! ## The operations of a writer -/

section

variable {r : Remotes} {α β : Type} {h : Local} {φ : Phase} {Q : α → Phase → Prop} {id : ℕ}

theorem channel_act (upd : Channel → Channel) (k : Channel → Prog Channel α) :
    channel id (.act upd k) = .act (fun s => { s with
        inQueue := update s.inQueue id (upd ⟨s.inQueue id, s.localReader⟩).queue
        localReader := (upd ⟨s.inQueue id, s.localReader⟩).reader })
      (fun s => channel id (k ⟨s.inQueue id, s.localReader⟩)) := rfl

theorem channel_bind (x : Prog Channel α) (f : α → Prog Channel β) :
    channel id (x >>= f) = channel id x >>= fun a => channel id (f a) :=
  zoom_bind _ _ x f

variable {s : MultiQueue} {C : Set ℕ} {b : Bool} (shape : QueueShape) (size : ℕ)

/-- A queue that is put back with its size unchanged. -/
theorem theSize_update {q : OneToOneUniQueue} (hq : q.theSize = (s.inQueue id).theSize) (j : ℕ) :
    (update s.inQueue id q j).theSize = (s.inQueue j).theSize := by
  by_cases hj : j = id
  · rw [hj, update_self, hq]
  · rw [update_of_ne hj]

/-- A writer does something that concerns nobody. -/
theorem safe_writer_keep {upd : Channel → Channel} {k : Channel → Prog Channel α}
    (hu : ∀ s, (upd s).queue.theSize = s.queue.theSize ∧ (upd s).reader = s.reader)
    (hk : ∀ s, (protocol r).SafeIn (.remote id) h (channel id (k s)) φ Q) :
    (protocol r).SafeIn (.remote id) h (channel id (.act upd k)) φ Q := by
  refine safe_writer fun s writers hφ => ⟨φ, fun b C ha => ?_, hk _⟩
  rw [← hφ, update_eq_self]
  exact ha.keep (hu _).2 rfl (theSize_update (hu _).1)

/-- The reader does something that concerns nobody. -/
theorem safe_reader_keep {upd : Channel → Channel} {k : Channel → Prog Channel α}
    (hu : ∀ s, (upd s).queue.theSize = s.queue.theSize ∧ (upd s).reader = s.reader)
    (hk : ∀ s, (protocol r).SafeIn .reader h (channel id (k s)) φ Q) :
    (protocol r).SafeIn .reader h (channel id (.act upd k)) φ Q := by
  refine safe_reader fun s writers hw => ⟨φ, hw.imp fun b C ha => ?_, hk _⟩
  exact ha.keep (hu _).2 rfl (theSize_update (hu _).1)

/-- A value is copied in. -/
theorem copyIn_safe (pos : ℕ) (bs : List UInt8) :
    (protocol r).SafeIn (.remote id) h (channel id (copyIn pos bs)) φ (fun _ φ' => φ' = φ) := by
  induction bs generalizing pos with
  | nil => exact .ret rfl
  | cons b bs ih => exact safe_writer_keep (fun _ => ⟨rfl, rfl⟩) fun _ => ih (pos + 1)

/-- A writer that has found its queue empty signals if the reader waits, and
then is going to notify. -/
theorem raiseSignal_safe : (protocol r).SafeIn (.remote id) h (channel id raiseSignal) .raising
      (fun must φ => φ = if must then .notifying else .quiet) := by
  unfold raiseSignal
  simp only [load_bind, rmw_bind]
  rw [channel_act]
  refine safe_writer fun s writers hφ => ?_
  cases hb : s.localReader.popBlocked with
  | false =>
    refine ⟨.quiet, fun b C ha => ?_, .ret rfl⟩
    exact (ha.unblocked hφ hb).keep rfl rfl (theSize_update rfl)
  | true =>
    refine ⟨.raising, fun b C ha => ?_, ?_⟩
    · rw [← hφ, update_eq_self]
      exact ha.keep rfl rfl (theSize_update rfl)
    · refine safe_writer fun s writers hφ => ⟨_, fun b C ha => ha.exchange hφ rfl rfl, .ret ?_⟩
      cases s.localReader.popSignal <;> rfl

/-- An item is handed over, and the reader is signalled if it waits. -/
theorem put_safe (v : List UInt8) : (protocol r).SafeIn (.remote id) h
      (channel id (put shape v true)) .quiet
      (fun must φ => φ = if must then .notifying else .quiet) := by
  unfold put
  simp only [load_bind, store_bind, rmw_bind]
  refine safe_writer_keep (fun _ => ⟨rfl, rfl⟩) fun _ => ?_
  refine safe_writer_keep (fun _ => ⟨rfl, rfl⟩) fun _ => ?_
  rw [channel_bind]
  refine (copyIn_safe _ v).bind ?_
  rintro _ φ rfl
  rw [channel_act]
  refine safe_writer fun s writers hφ => ⟨_, fun b C ha => ha.publish hφ rfl rfl fun j hj =>
    congrArg theSize (update_of_ne hj _ _), ?_⟩
  split
  · exact raiseSignal_safe
  · exact .ret rfl

/-- **`push` returns true to a writer that must notify, and only then.** -/
theorem push_safe (v : List UInt8) : (protocol r).SafeIn (.remote id) h (push shape id v) .quiet
      (fun result φ => φ = if result = .ok true then .notifying else .quiet) := by
  unfold push OneToOneUniQueue.push
  by_cases hs : shape.theMaxItemSize.toNat < v.length
  · rw [if_pos hs]
    exact .ret rfl
  · rw [if_neg hs]
    simp only [load_bind]
    refine safe_writer_keep (fun _ => ⟨rfl, rfl⟩) fun s => ?_
    split
    · exact .ret rfl
    · rw [channel_bind]
      refine (put_safe shape v).bind ?_
      rintro (_ | _) φ rfl
      · exact .ret rfl
      · exact .ret rfl

/-! ## The operations of the reader -/

/-- A value is copied out. -/
theorem copyOut_safe (pos n : ℕ) :
    (protocol r).SafeIn .reader h (channel id (copyOut pos n)) φ (fun _ φ' => φ' = φ) := by
  induction n generalizing pos with
  | zero => exact .ret rfl
  | succ n ih =>
    simp only [copyOut, load_bind]
    refine safe_reader_keep (fun _ => ⟨rfl, rfl⟩) fun s => ?_
    rw [channel_bind]
    refine (ih (pos + 1)).bind ?_
    rintro bs φ rfl
    exact .ret rfl

/-- A reader that pops an item starts to check its queues anew. -/
theorem take_safe : (protocol r).SafeIn .reader h (channel id (take shape size true))
      (.popping b C) (fun _ φ => φ = .popping false ∅) := by
  unfold take unblock
  simp only [if_true, load_bind, store_bind]
  refine safe_reader fun s writers hw =>
    ⟨.popping false ∅, Alert.unchecked (Alert.signal (s := s) hw), ?_⟩
  refine safe_reader_keep (fun _ => ⟨rfl, rfl⟩) fun _ => ?_
  refine safe_reader_keep (fun _ => ⟨rfl, rfl⟩) fun _ => ?_
  rw [channel_bind]
  refine (copyOut_safe _ size).bind ?_
  rintro v φ rfl
  exact safe_reader fun s writers hw =>
    ⟨.popping false ∅, Alert.unchecked (Alert.signal (s := s) hw), .ret rfl⟩

/-- **A `pop` that finds nothing has checked the queue while the reader was
blocked.** -/
theorem pop_one_safe :
    (protocol r).SafeIn .reader h (channel id (OneToOneUniQueue.pop shape size true))
      (.popping b C) (fun result φ => match result with
        | .ok (some _) => φ = .popping false ∅
        | .ok none => φ = .popping true (insert id C)
        | .error _ => φ = .popping b C) := by
  have some_safe : ∀ {Q : Except QueueError (Option (List UInt8)) → Phase → Prop} b,
      (∀ v, Q (.ok (some v)) (.popping false ∅)) → (protocol r).SafeIn .reader h (channel id
        (do return .ok (some (← OneToOneUniQueue.take shape size true)))) (.popping b C) Q := by
    intro Q b hQ
    rw [channel_bind]
    refine (take_safe shape size).bind ?_
    rintro v φ rfl
    exact .ret (hQ v)
  unfold OneToOneUniQueue.pop
  by_cases hs : shape.theMaxItemSize.toNat < size
  · rw [if_pos hs]
    exact .ret rfl
  · rw [if_neg hs]
    simp only [load_bind]
    refine safe_reader_keep (fun _ => ⟨rfl, rfl⟩) fun s => ?_
    split
    · simp only [if_true, block, store_bind]
      rw [channel_act]
      refine safe_reader fun s writers hw =>
        ⟨.popping true C, Alert.block hw rfl rfl (theSize_update rfl), ?_⟩
      rw [channel_act]
      refine safe_reader fun s writers hw => ?_
      by_cases hz : (s.inQueue id).theSize = 0
      · refine ⟨.popping true (insert id C),
          (Alert.check hw hz).keep rfl rfl (theSize_update rfl), ?_⟩
        rw [if_pos hz]
        exact .ret rfl
      · refine ⟨.popping true C, Alert.keep hw rfl rfl (theSize_update rfl), ?_⟩
        rw [if_neg hz]
        exact some_safe true fun _ => rfl
    · exact some_safe b fun _ => rfl

/-- **A round that finds nothing has checked every queue.** -/
theorem popLoop_safe (rounds last : ℕ) (hl : r.remotesIdOffset ≤ last + 1)
    (hC : ∀ id ∈ r.ids, id ∈ C ∨ ∃ i < rounds, r.next^[i + 1] last = id) :
    (protocol r).SafeIn .reader h (popLoop r shape size rounds last) (.popping b C)
      (fun result φ => r.remotesIdOffset ≤ result.1 + 1 ∧ ∃ b' C', φ = .popping b' C'
        ∧ (result.2 = .ok none → r.ids ⊆ C')) := by
  induction rounds generalizing last b C with
  | zero =>
    refine .ret ⟨hl, b, C, rfl, fun _ id hid => (hC id hid).resolve_right ?_⟩
    rintro ⟨i, hi, -⟩
    exact absurd hi (Nat.not_lt_zero i)
  | succ rounds ih =>
    have hn : r.remotesIdOffset ≤ r.next last + 1 := by
      unfold Remotes.next
      split <;> omega
    refine (pop_one_safe shape size).bind ?_
    rintro (e | (_ | v)) φ hφ
    · exact .ret ⟨hn, b, C, hφ, nofun⟩
    · subst hφ
      refine ih (r.next last) hn fun id hid => ?_
      rcases hC id hid with hmem | ⟨i, hi, hit⟩
      · exact .inl (Set.mem_insert_of_mem _ hmem)
      · cases i with
        | zero => exact .inl (Set.mem_insert_iff.mpr (.inl hit.symm))
        | succ i => exact .inr ⟨i, by omega, hit⟩
    · exact .ret ⟨hn, false, ∅, hφ, nofun⟩

/-- **A reader that has popped everything has checked every queue.** -/
theorem handleNewData_safe (fuel last : ℕ) (hl : r.remotesIdOffset ≤ last + 1) :
    (protocol r).SafeIn .reader h (handleNewData r shape size fuel last) (.popping b C)
      (fun h' φ => r.remotesIdOffset ≤ h'.theLastPopProcessId + 1 ∧ ∃ b' C', φ = .popping b' C'
        ∧ (h'.drained = true → r.ids ⊆ C')) := by
  induction fuel generalizing last b C with
  | zero => trivial
  | succ fuel ih =>
    refine (popLoop_safe shape size r.remotesCount last hl fun id hid =>
      .inr (r.exists_iterate_next hl hid)).bind ?_
    rintro ⟨last', (e | (_ | v))⟩ φ ⟨hl', b', C', rfl, hC⟩
    · exact .ret ⟨hl', b', C', rfl, nofun⟩
    · exact .ret ⟨hl', b', C', rfl, fun _ => hC rfl⟩
    · exact ih last' hl'

/-- The reader becomes idle. -/
theorem return_reader {h' : Local} (hl : r.remotesIdOffset ≤ h'.theLastPopProcessId + 1)
    (hC : h'.drained = true → r.ids ⊆ C) :
    (protocol r).Return .reader ⟨h, true⟩ .quiet h' (.popping b C) := by
  intro s o φs hI _ ho hφ
  have hw := hI.busy (by rw [ho])
  rw [hφ] at hw
  refine ⟨fun hb => ?_, fun _ hd => ?_, hI.writers, ?_⟩
  · cases hb
  · exact ⟨b, Alert.anti hw (hC hd)⟩
  · exact hl

/-- The reader clears its signals and pops everything. -/
theorem drain_safe (last : ℕ) (hl : r.remotesIdOffset ≤ last + 1) :
    (protocol r).SafeIn .reader h (do
        clearAllReaderSignals
        pick fun fuel => handleNewData r shape size fuel last) .clearing
      ((protocol r).Return .reader ⟨h, true⟩ .quiet) := by
  refine safe_reader fun s writers _ => ⟨.clearing, trivial, ?_⟩
  refine safe_reader fun s writers _ => ⟨.popping false ∅, Alert.unchecked nofun, fun fuel => ?_⟩
  refine (handleNewData_safe shape size fuel last hl).mono ?_
  rintro h' φ ⟨hl', b', C', rfl, hC⟩
  exact return_reader hl' hC

/-! ## Every run -/

/-- The reader enters an operation. -/
theorem enter_reader {o : Party → Outline Local} {φs : Party → Phase} {h' : Local}
    (hI : Inv r s o φs) (hl : r.remotesIdOffset ≤ h'.theLastPopProcessId + 1) :
    Inv r s (update o .reader ⟨h', true⟩) (update φs .reader .clearing) := by
  refine ⟨fun _ => ?_, fun hb => ?_, hI.writers, ?_⟩
  · trivial
  · cases hb
  · exact hl

/-- A writer enters or leaves an operation with nothing under way. -/
theorem update_writer {o : Party → Outline Local} {φs : Party → Phase} (hI : Inv r s o φs)
    (hφ : φs (.remote id) = .quiet) (v : Outline Local) :
    Inv r s (update o (.remote id) v) (update φs (.remote id) .quiet) := by
  rw [← hφ, update_eq_self]
  refine ⟨hI.busy, hI.idle, fun j hj => ?_, hI.last⟩
  have hne : Party.remote j ≠ .remote id := fun h => hj (h ▸ hφ)
  rw [update_of_ne hne]
  exact hI.writers j hj

/-- **The invariant holds in every run.** -/
theorem reachable_inv {shape : QueueShape} {size : ℕ} {init : MultiQueue}
    {c : Config MultiQueue Party Local} (hc : (system r shape size init).Reachable c) :
    ∃ φs, Inv r c.mem c.outline φs ∧ ∀ p, (protocol r).ThreadOk .quiet p (c.thread p) (φs p) := by
  refine System.ReachableIn.invariant (S := system r shape size init) (π := protocol r) ?_ ?_ hc
  · refine ⟨nofun, nofun, fun id hid => absurd rfl hid, ?_⟩
    have := r.fits
    show r.remotesIdOffset ≤ 2 ^ 31 - 2 + 1
    omega
  · intro p op s h h' x hcall o φs hI _ ho hφ
    cases p with
    | reader =>
      have hl : r.remotesIdOffset ≤ h.theLastPopProcessId + 1 := by
        have := Inv.last hI
        rwa [ho] at this
      cases op with
      | handleNewDataAtStart =>
        obtain ⟨rfl, rfl⟩ := Prod.mk.inj (some.inj hcall)
        exact ⟨.clearing, enter_reader hI hl, drain_safe shape size _ hl⟩
      | handleNotification sender =>
        obtain ⟨_, hcall⟩ := ite_none_left_eq_some.mp hcall
        obtain ⟨rfl, rfl⟩ := Prod.mk.inj (some.inj hcall)
        refine ⟨.clearing, enter_reader hI hl, ?_⟩
        exact safe_reader fun s writers _ => ⟨.clearing, trivial, drain_safe shape size _ hl⟩
      | broadcast v => cases hcall
    | remote id =>
      cases op with
      | handleNewDataAtStart => cases hcall
      | handleNotification sender => cases hcall
      | broadcast v =>
        obtain ⟨_, hcall⟩ := ite_some_none_eq_some.mp hcall
        obtain ⟨rfl, rfl⟩ := Prod.mk.inj hcall
        refine ⟨.quiet, update_writer hI hφ _, (push_safe shape v).bind ?_⟩
        have done : (protocol r).Return (.remote id) ⟨h, true⟩ .quiet h .quiet :=
          fun s o φs hI _ _ hφ => update_writer hI hφ _
        rintro (e | (_ | _)) φ rfl
        · exact .ret done
        · exact .ret done
        · refine safe_writer fun s writers hφ =>
            ⟨.quiet, fun b C ha => ha.notify hφ rfl rfl ?_, .ret done⟩
          show 0 < update s.inFlight id (s.inFlight id + 1) id
          rw [update_self]
          exact Nat.succ_pos _

/-- **No wakeup is lost.** When the reader is idle after `pop` has returned
false and one of its queues is not empty, a notification is in flight or
some writer is inside an operation, about to notify. -/
theorem notified_of_nonempty {shape : QueueShape} {size : ℕ} {init : MultiQueue}
    {c : Config MultiQueue Party Local} (hc : (system r shape size init).Reachable c) {h : Local}
    (hidle : c.thread .reader = .idle h) (hd : h.drained = true) (hid : id ∈ r.ids)
    (hne : (c.mem.inQueue id).theSize ≠ 0) :
    (∃ w, 0 < c.mem.inFlight w) ∨ ∃ w, (c.outline (.remote w)).busy = true := by
  obtain ⟨φs, hI, -⟩ := reachable_inv hc
  have ho : c.outline .reader = ⟨h, false⟩ := by
    unfold Config.outline
    rw [hidle]
    rfl
  obtain ⟨b, ha⟩ := hI.idle (by rw [ho]) (by rw [ho]; exact hd)
  rcases ha.seen id hid hne with hs | hraise
  · rcases ha.signal hs with ⟨w, hw⟩ | hf
    · exact .inr ⟨w, hI.writers w (by rw [hw]; exact Phase.noConfusion)⟩
    · exact .inl hf
  · exact .inr ⟨id, hI.writers id (by rw [hraise]; exact Phase.noConfusion)⟩

end

/-- For instance with two writers, where the first one is about to notify a
reader that has just checked both queues. -/
theorem notified_of_nonempty_two :
    ∃ c, (system ⟨1, 2, by decide⟩ ⟨1, 4⟩ 1
        ⟨fun _ => .new fun _ => 0, .new, fun _ => 0⟩).Reachable c
      ∧ c.thread .reader = .idle ⟨2, true⟩ ∧ (c.mem.inQueue 1).theSize = 1
      ∧ ((∃ w, 0 < c.mem.inFlight w) ∨ ∃ w, (c.outline (.remote w)).busy = true) := by
  have hc : (system ⟨1, 2, by decide⟩ ⟨1, 4⟩ 1
      ⟨fun _ => .new fun _ => 0, .new, fun _ => 0⟩).Reachable _ :=
    (System.ReachableIn.init trivial).run
      (.invoke .reader .handleNewDataAtStart :: List.replicate 9 (.advance .reader 1)
        ++ .invoke (.remote 1) (.broadcast [7]) :: List.replicate 7 (.advance (.remote 1) 0)
        ++ [.advance .reader 0]) rfl
  exact ⟨_, hc, rfl, rfl,
    notified_of_nonempty hc rfl rfl (show 1 ∈ Remotes.ids _ from ⟨by decide, by decide⟩)
      (by decide)⟩

end BaseMultiQueue

end Ipc
