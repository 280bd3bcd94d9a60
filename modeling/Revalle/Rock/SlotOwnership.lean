import Revalle.Rock.IoState

/-!
# Who owns the slots of an entry

A slot that was reserved for an entry is the next or the current one of the writer,
then that of a request, and in the end a slot of the chain, unless it was given back
on the way. `Owned` says that it is always exactly one of these, by listing all the
slots that were reserved.

As long as nothing has failed, the requests without an answer are the last ones that
were made, in order, and each names the slot of the one before it (`Row`). So an
answer that is expected is the one to the first of them, and its slot comes after
the last one of the chain. Any other answer is the end: the writer gives back what
it holds for itself, and each later answer gives back the slot of its request. What
is in the chain by then is freed with the entry.

Freeing an entry frees nothing if its key is zero. This is the one thing that must
be ruled out.
-/

namespace Rock

open Ipc Throwing Linked Swapout Function List Option Bool

namespace Swapout

/-- The link of a slice. -/
def next (s : Swapout) (sid : ℕ) : Option ℕ := (s.slices sid).next

/-- The slots that are neither free nor in the chain: those of the requests without
an answer, the current one and the next one. -/
def held (s : Swapout) : List ℕ :=
  s.inFlight.map (·.sidCurrent) ++ (s.sidCurrent.toList ++ s.sidNext.toList)

end Swapout

/-- Requests in a row, after the slot `prev` and up to the slot `last`. It is the
last one that says so. -/
def Row : Option ℕ → List WriteRequest → Option ℕ → Bool → Prop
  | prev, [], last, ended => last = prev ∧ ended = false
  | prev, r :: rs, last, ended =>
    r.sidPrevious = prev ∧
      (r.eof = true ∧ rs = [] ∧ last = some r.sidCurrent ∧ ended = true ∨
        r.eof = false ∧ Row (some r.sidCurrent) rs last ended)

variable {rs : List WriteRequest}

theorem Row.append {r : WriteRequest} {prev last : Option ℕ} (h : Row prev rs last false)
    (hr : r.sidPrevious = last) : Row prev (rs ++ [r]) (some r.sidCurrent) r.eof := by
  induction rs generalizing prev with
  | nil =>
    refine ⟨hr.trans h.1, ?_⟩
    cases r.eof with
    | true => exact .inl ⟨rfl, rfl, rfl, rfl⟩
    | false => exact .inr ⟨rfl, rfl, rfl⟩
  | cons q rs ih =>
    refine ⟨h.1, h.2.elim (fun hend => ?_) fun hmore => .inr ⟨hmore.1, ih hmore.2⟩⟩
    exact absurd hend.2.2.2 nofun

/-- **Each slot has one owner.** `chain` is the chain of the entry. -/
structure Owned (c : Config) (s : Swapout) (chain : List ℕ) : Prop where
  perm : s.reserved.Perm (s.freed ++ (chain ++ s.held))
  nodup : (s.reserved ++ s.slots.reduceOption).Nodup
  valid : ∀ sid ∈ s.reserved ++ s.slots.reduceOption, sid < c.sliceLimit
  walk : Walk s.next none s.start chain

/-- A writer at work. It is `ended` when the last request was made. -/
structure Active (s : Swapout) (chain : List ℕ) (ended : Bool) : Prop where
  lock : s.lock = .writing
  anchor : s.writeableAnchor_ = true
  freed : s.freed = []
  sent : s.sent.map (·.sidCurrent) = chain ++ s.inFlight.map (·.sidCurrent)
  ids : s.inFlight.map (·.id) = List.range' (s.repliesReceived + 1) s.inFlight.length
  requests : s.requestsSent = s.repliesReceived + s.inFlight.length
  row : Row chain.getLast? s.inFlight s.sidPrevious ended
  cleared : ∀ sid ∈ s.held, s.next sid = none
  first : ended = false → (s.sidFirst = none ↔ s.sidCurrent = none)
  last : ended = true → s.sidCurrent = none ∧ s.sidNext = none

/-- A writer that is done. -/
structure Finished (s : Swapout) (chain : List ℕ) (ended : Bool) : Prop where
  current : s.sidCurrent = none
  next : s.sidNext = none
  still : ended = false → s.lock = .writing
  complete : s.lock = .reading →
    s.inFlight = [] ∧ s.freed = [] ∧ s.sent.map (·.sidCurrent) = chain
  gone : s.lock = .unlocked → chain = []

/-- The buffer begins with space for a header, and fits. -/
def BufOk (c : Config) (buf : List UInt8) : Prop :=
  buf = [] ∨ sizeofDbCellHeader ≤ buf.length ∧ buf.length ≤ c.capacity

/-- **What holds all the time.** -/
structure Inv (c : Config) (s : Swapout) (chain : List ℕ) (ended : Bool) : Prop where
  owned : Owned c s chain
  state : if s.theFile then Active s chain ended else Finished s chain ended
  buf : BufOk c s.theBuf

variable {c : Config} {s : Swapout} {chain : List ℕ} {ended : Bool} {r : WriteRequest}

theorem Inv.active (h : Inv c s chain ended) (hfile : s.theFile = true) : Active s chain ended := by
  have hstate := h.state
  rwa [if_pos hfile] at hstate

theorem Inv.finished (h : Inv c s chain ended) (hfile : s.theFile = false) :
    Finished s chain ended := by
  have hstate := h.state
  rwa [if_neg (ne_true_of_eq_false hfile)] at hstate

/-- It is the last request that says so. -/
theorem Active.of_eof (ha : Active s chain ended) (hfl : s.inFlight = r :: rs)
    (heof : r.eof = true) : rs = [] ∧ ended = true := by
  have hrow := ha.row
  rw [hfl] at hrow
  obtain ⟨-, hrs, -, hover⟩ := hrow.2.resolve_right fun hmore =>
    nomatch heof.symm.trans hmore.1
  exact ⟨hrs, hover⟩

theorem held_next_perm (hnext : s.sidNext = none) (sid : ℕ) :
    (s.sidCurrent.toList ++ (some sid).toList).Perm
      (sid :: (s.sidCurrent.toList ++ s.sidNext.toList)) := by
  rw [hnext]
  simp

/-! ## Giving slots back -/

theorem noteFree_eq (o : Option ℕ) (s : Swapout) :
    noteFree o s = { s with freed := s.freed ++ o.toList } := by
  cases o with
  | none =>
    rw [toList_none, append_nil]
    rfl
  | some sid => rfl

/-- The anchor is locked by the writer, so the entry is only marked. -/
theorem writeError_eq (h : s.lock = .writing) :
    s.writeError c = { s with waitingToBeFreed := true } := by
  rw [writeError, freeEntry, h]

/-- What an answer leaves alone. -/
structure Kept (s s' : Swapout) : Prop where
  theBuf : s'.theBuf = s.theBuf
  sidNext : s.sidNext = none → s'.sidNext = none

/-- What an answer leaves. -/
def Stays (c : Config) (ended : Bool) (s s' : Swapout) : Prop :=
  (∃ chain, Inv c s' chain ended) ∧ Kept s s'

theorem Kept.fail (hlock : s.lock = .writing) : Kept s ((s.writeError c).finishedWriting) := by
  rw [writeError_eq hlock, finishedWriting, noteFree_eq, noteFree_eq]
  exact ⟨rfl, fun _ => rfl⟩

section

variable (h : Owned c s chain)
include h

theorem Inv.of_active (hfile : s.theFile = true) (ha : Active s chain ended)
    (hbuf : BufOk c s.theBuf) : Inv c s chain ended :=
  ⟨h, (if_pos hfile).symm ▸ ha, hbuf⟩

theorem Inv.of_finished (hfile : ¬ s.theFile = true)
    (hf : Finished s chain ended) (hbuf : BufOk c s.theBuf) : Inv c s chain ended :=
  ⟨h, (if_neg hfile).symm ▸ hf, hbuf⟩

/-- The slot of a request is one of the map. -/
theorem Owned.inFlight_lt (hfl : s.inFlight = r :: rs) : r.sidCurrent < c.sliceLimit := by
  refine h.valid _ (mem_append_left _ (h.perm.mem_iff.mpr ?_))
  simp [held, hfl]

theorem Owned.nodup_all : (s.freed ++ (chain ++ s.held)).Nodup :=
  h.perm.nodup_iff.mp (nodup_append.mp h.nodup).1

/-- The writer gives up: all it holds for itself is free. -/
theorem Owned.fail (hlock : s.lock = .writing) (hbuf : BufOk c s.theBuf)
    (ended : Bool) : Inv c ((s.writeError c).finishedWriting) chain ended := by
  rw [writeError_eq hlock, finishedWriting, noteFree_eq, noteFree_eq]
  refine ⟨⟨?_, h.nodup, h.valid, h.walk⟩, ⟨rfl, rfl, fun _ => hlock,
    fun h => (nomatch hlock.symm.trans h), fun h => nomatch hlock.symm.trans h⟩, hbuf⟩
  refine h.perm.trans ?_
  rw [perm_iff_count]
  intro sid
  simp only [held, count_append, toList_none, count_nil]
  omega

/-- A request is answered, and its slot is free. -/
theorem Owned.drop {i : ℕ} (hr : s.inFlight[i]? = some r) (ok : Bool) :
    Owned c ((answered i r ok s).noteFreeMapSlice r.sidCurrent) chain := by
  refine ⟨h.perm.trans ?_, h.nodup, h.valid, h.walk⟩
  obtain ⟨hi, rfl⟩ := List.getElem?_eq_some_iff.mp hr
  have herase := (getElem_cons_eraseIdx_perm hi).map (·.sidCurrent)
  rw [perm_iff_count]
  intro sid
  have hcount := herase.count_eq sid
  simp only [held, answered, noteFreeMapSlice, count_append, map_cons, count_cons,
    count_nil] at hcount ⊢
  omega

theorem Owned.walk_length : chain.length ≤ c.sliceLimit := by
  have hsub : chain ⊆ range c.sliceLimit := fun sid hmem => by
    rw [mem_range]
    refine h.valid sid (mem_append_left _ (h.perm.mem_iff.mpr ?_))
    exact mem_append_right _ (mem_append_left _ hmem)
  have hnodup : chain.Nodup := (nodup_append.mp (nodup_append.mp h.nodup_all).2.1).1
  exact (hnodup.subperm hsub).length_le.trans_eq length_range

end

/-- Freeing a chain frees its slots, one by one. -/
theorem freed_freeChainAt {fuel : ℕ} {start : Option ℕ} (hwalk : Walk s.next none start chain)
    (hnodup : chain.Nodup) (hfuel : chain.length ≤ fuel) : ∃ slices, freeChainAt fuel start s =
      { s with freed := s.freed ++ chain, slices := slices } := by
  induction chain generalizing fuel start s with
  | nil =>
    subst hwalk
    refine ⟨s.slices, ?_⟩
    rw [append_nil]
    cases fuel <;> rfl
  | cons sid chain ih =>
    obtain ⟨rfl, htail⟩ := hwalk
    obtain ⟨hnot, hnodup⟩ := nodup_cons.mp hnodup
    cases fuel with
    | zero => exact absurd hfuel (Nat.not_succ_le_zero _)
    | succ fuel =>
      have hwalk : Walk ((s.clear sid).noteFreeMapSlice sid).next none (s.slices sid).next
          chain := htail.congr fun x hx => by
        have hne : x ≠ sid := fun h => hnot (h ▸ hx)
        show (update s.slices sid _ x).next = _
        rw [update_of_ne hne]
        rfl
      obtain ⟨slices, heq⟩ := ih hwalk hnodup (Nat.le_of_succ_le_succ hfuel)
      rw [freeChainAt, heq]
      simp [noteFreeMapSlice, clear]

/-! ## Answers -/

theorem Active.id_eq (h : Active s chain ended) {i : ℕ} (hr : s.inFlight[i]? = some r) :
    r.id = s.repliesReceived + 1 + i ∧ i < s.inFlight.length := by
  have hi : i < s.inFlight.length := (List.getElem?_eq_some_iff.mp hr).1
  have hid : (s.inFlight.map (·.id))[i]? = some r.id := by rw [getElem?_map, hr]; rfl
  rw [h.ids, getElem?_range' hi, Nat.one_mul] at hid
  exact ⟨(some.inj hid).symm, hi⟩

section Link

variable {rs : List WriteRequest} {start : Option ℕ} {slices : ℕ → StoreMapSlice}
  (disk : ℕ → UInt8)

/-- The slot of the first request is now in the chain. -/
theorem Owned.link (h : Owned c s chain) (hfl : s.inFlight = r :: rs)
    (hwalk : Walk (fun sid => (slices sid).next) none start (chain ++ [r.sidCurrent])) (n : ℕ) :
    Owned c { s with inFlight := rs, repliesReceived := n, start, slices, disk }
      (chain ++ [r.sidCurrent]) := by
  refine ⟨h.perm.trans ?_, h.nodup, h.valid, hwalk⟩
  rw [perm_iff_count]
  intro sid
  simp only [held, hfl, map_cons, count_append, count_cons, count_nil]
  omega

theorem Active.link (h : Active s chain ended) (hfl : s.inFlight = r :: rs) (heof : r.eof = false)
    (hslices : ∀ sid ∈ s.held, (slices sid).next = none) :
    Active { s with inFlight := rs, repliesReceived := s.repliesReceived + 1, start, slices, disk }
      (chain ++ [r.sidCurrent]) ended := by
  have hrow := h.row
  rw [hfl] at hrow
  have hrest := hrow.2.resolve_left fun hend => nomatch heof.symm.trans hend.1
  have hids := h.ids
  rw [hfl, map_cons, length_cons, range'_succ] at hids
  have hsent := h.sent
  rw [hfl, map_cons] at hsent
  have hrequests := h.requests
  rw [hfl, length_cons] at hrequests
  refine ⟨h.lock, h.anchor, h.freed, ?_, (cons.inj hids).2, ?_, ?_, ?_, h.first, h.last⟩
  · rw [hsent, append_assoc]
    rfl
  · show s.requestsSent = s.repliesReceived + 1 + rs.length
    omega
  · rw [getLast?_concat]
    exact hrest.2
  · intro sid hmem
    refine hslices sid ?_
    rw [held, hfl]
    exact mem_cons_of_mem _ hmem

/-- The last slot was written: the entry is complete. -/
theorem Owned.complete (h : Owned c s chain) (ha : Active s chain ended)
    (hfl : s.inFlight = r :: rs) (heof : r.eof = true)
    (hwalk : Walk (fun sid => (slices sid).next) none start (chain ++ [r.sidCurrent]))
    (hbuf : BufOk c s.theBuf) (n size : ℕ) : Inv c (finishedWriting { s with
          inFlight := rs, repliesReceived := n, start, slices, disk, swap_file_sz := size
          lock := .reading, writeableAnchor_ := false })
      (chain ++ [r.sidCurrent]) ended := by
  obtain ⟨hrs, hover⟩ := ha.of_eof hfl heof
  obtain ⟨hcurrent, hnext⟩ := ha.last hover
  have howned := h.link disk hfl hwalk n
  rw [finishedWriting, noteFree_eq, noteFree_eq]
  have hsent := ha.sent
  rw [hfl, hrs, map_cons, map_nil] at hsent
  refine ⟨⟨?_, h.nodup, h.valid, hwalk⟩,
    ⟨rfl, rfl, fun hopen => ?_, fun _ => ⟨hrs, ?_, hsent⟩, nofun⟩, hbuf⟩
  · have hperm := howned.perm
    simp only [held, hcurrent, hnext] at hperm ⊢
    simpa using hperm
  · exact nomatch hover.symm.trans hopen
  · simp only [hcurrent, hnext, ha.freed, toList_none, append_nil]

end Link

theorem next_setNext (sid : ℕ) (o : Option ℕ) (s : Swapout) :
    (s.setNext sid o).next = update s.next sid o :=
  funext (apply_update (fun _ => StoreMapSlice.next) s.slices sid _)

theorem size_setNext (sid : ℕ) (o : Option ℕ) (s : Swapout) (x : ℕ) :
    ((s.setNext sid o).slices x).size = (s.slices x).size :=
  (apply_update (fun _ => StoreMapSlice.size) s.slices sid _ x).trans
    (congrFun (update_eq_self ..) x)

/-- The size of a slice does not matter to the links. -/
theorem next_update_size (slices : ℕ → StoreMapSlice) (sid : ℕ) (size : UInt32) (x : ℕ) :
    (update slices sid { slices sid with size := size } x).next = (slices x).next :=
  (apply_update (fun _ => StoreMapSlice.next) slices sid _ x).trans (congrFun (update_eq_self ..) x)

/-- The chain grows by the slot of the first request. -/
theorem linkSlot_gives (h : Owned c s chain) (ha : Active s chain ended)
    (hfl : s.inFlight = r :: rs) (n : ℕ) (disk : ℕ → UInt8) {Q : Unit → Swapout → Prop}
    {E : Swapout → Prop} (hQ : ∀ start slices,
      Walk (fun sid => (slices sid).next) none start (chain ++ [r.sidCurrent]) →
      (∀ sid ∈ s.held, (slices sid).next = none) →
      (∀ sid, (slices sid).size = (s.slices sid).size) →
      Q () { s with inFlight := rs, repliesReceived := n, disk, start, slices }) :
    Gives (linkSlot c r) Q E { s with inFlight := rs, repliesReceived := n, disk } := by
  have hheld : s.held = r.sidCurrent :: (rs.map (·.sidCurrent) ++
      (s.sidCurrent.toList ++ s.sidNext.toList)) := by rw [held, hfl]; rfl
  have hr : r.sidCurrent ∈ s.held := by rw [hheld]; exact mem_cons_self
  have hnodup := (nodup_append.mp h.nodup_all).2.1
  have hprev : r.sidPrevious = chain.getLast? := by
    have hrow := ha.row
    rw [hfl] at hrow
    exact hrow.1
  unfold linkSlot
  simp only [gives_bind, gives_get]
  rcases eq_nil_or_concat' chain with rfl | ⟨front, y, rfl⟩
  · have hstart : s.start = none := h.walk
    rw [hprev, hstart]
    refine (gives_modify _).mpr (hQ _ s.slices ?_ ha.cleared fun _ => rfl)
    exact walk_singleton (ha.cleared _ hr)
  · have hy : ∀ sid ∈ s.held, sid ≠ y := fun sid hsid heq =>
      (nodup_append.mp hnodup).2.2 y (mem_append_right _ (mem_singleton_self y)) sid hsid heq.symm
    obtain ⟨x, hstart⟩ : ∃ x, s.start = some x := by
      cases front with
      | nil => exact ⟨_, h.walk.1⟩
      | cons z front => exact ⟨_, h.walk.1⟩
    rw [hprev, hstart, getLast?_concat]
    have hvalid : y < c.sliceLimit := by
      refine h.valid y (mem_append_left _ (h.perm.mem_iff.mpr ?_))
      simp
    simp only [gives_bind, gives_defined]
    refine ⟨⟨ha.lock, hvalid⟩, (gives_modify _).mpr ?_⟩
    have hnext : ∀ sid ∈ s.held, (s.setNext y (some r.sidCurrent)).next sid = none := by
      intro sid hsid
      rw [next_setNext, update_of_ne (hy sid hsid)]
      exact ha.cleared sid hsid
    refine hQ _ (s.setNext y (some r.sidCurrent)).slices ?_ hnext (size_setNext y _ s)
    show Walk (s.setNext y (some r.sidCurrent)).next none _ _
    rw [next_setNext, append_assoc]
    have hchain := nodup_append.mp (nodup_append.mp hnodup).1
    have hfront : y ∉ front := fun hmem => hchain.2.2 y hmem y (mem_singleton_self y) rfl
    exact Walk.join (hstart ▸ h.walk) (walk_singleton (ha.cleared _ hr)) hfront
      fun hmem => hy _ hr (mem_singleton.mp hmem).symm

/-- An answer out of order, or an error. -/
theorem Inv.problem (h : Inv c s chain ended) (hfile : s.theFile = true) {i : ℕ}
    (hr : s.inFlight[i]? = some r) (ok : Bool) (n : ℕ) : Stays c ended s
      (handleWriteCompletionProblem c r { answered i r ok s with repliesReceived := n }) := by
  have hlock := (h.active hfile).lock
  have hdrop := h.owned.drop hr ok
  have howned : Owned c (noteFreeMapSlice r.sidCurrent
      { answered i r ok s with repliesReceived := n }) chain := { hdrop with }
  have hkept : Kept (noteFreeMapSlice r.sidCurrent { answered i r ok s with repliesReceived := n })
      (handleWriteCompletionProblem c r { answered i r ok s with repliesReceived := n }) :=
    Kept.fail hlock
  exact ⟨⟨chain, howned.fail hlock h.buf ended⟩, hkept.theBuf, hkept.sidNext⟩

/-- What the buffer holds and which replies will come does not matter. -/
theorem Inv.revise (h : Inv c s chain ended) {buf : List UInt8} (hbuf : BufOk c buf) (n : ℕ)
    (replies : List (List (ℕ × Bool))) :
    Inv c { s with theBuf := buf, offset_ := n, replies } chain ended := by
  have howned : Owned c { s with theBuf := buf, offset_ := n, replies } chain := { h.owned with }
  by_cases hfile : s.theFile = true
  · have ha := h.active hfile
    exact .of_active howned hfile { ha with } hbuf
  · have hf := h.finished (eq_false_iff.mpr hfile)
    exact .of_finished howned hfile { hf with } hbuf

theorem Inv.withReplies (h : Inv c s chain ended) (replies : List (List (ℕ × Bool))) :
    Inv c { s with replies } chain ended :=
  h.revise h.buf s.offset_ replies

section

variable (hkey : ¬ (c.key.k0 = 0 ∧ c.key.k1 = 0))
include hkey

/-- **A slot that was written is linked into the map.** -/
theorem handleWriteCompletionSuccess_inv (h : Inv c s chain ended) (hfile : s.theFile = true)
    (hfl : s.inFlight = r :: rs) (disk : ℕ → UInt8) :
    Gives (handleWriteCompletionSuccess c r) (fun _ => Stays c ended s) (fun _ => False)
      { s with inFlight := rs, repliesReceived := s.repliesReceived + 1, disk } := by
  have ha := h.active hfile
  have hvalid := h.owned.inFlight_lt hfl
  unfold handleWriteCompletionSuccess
  simp only [gives_bind, gives_get, gives_defined]
  refine ⟨ha.anchor, linkSlot_gives h.owned ha hfl _ _ fun start slices hwalk hslices _ => ?_⟩
  simp only [gives_bind, gives_get, gives_defined, gives_modify, gives_must, gives_whenever,
    completeEntry]
  have hr : r.sidCurrent ∈ s.held := by simp [held, hfl]
  have hnext := next_update_size slices r.sidCurrent (UInt32.ofNat (r.len - sizeofDbCellHeader))
  have hwalk' := hwalk.congr fun x _ => hnext x
  refine ⟨⟨ha.lock, hvalid⟩, fun _ => ⟨fun heof => ⟨ha.lock, hkey, ?_⟩, fun heof => ?_⟩,
    fun hne => ?_⟩
  · refine ⟨⟨_, h.owned.complete disk ha hfl heof hwalk' h.buf _ _⟩, ?_, fun _ => rfl⟩
    rw [finishedWriting, noteFree_eq, noteFree_eq]
    rfl
  · refine ⟨⟨_, .of_active (h.owned.link disk hfl hwalk' _) hfile ?_ h.buf⟩, rfl, id⟩
    refine ha.link disk hfl (eq_false_iff.mpr heof) fun sid hsid => ?_
    rw [hnext]
    exact hslices sid hsid
  · refine hne ?_
    show (update slices _ _ _).next = none
    rw [hnext]
    exact hslices _ hr

/-- **An answer to a writer at work keeps the owners apart.** -/
theorem handleWriteCompletion_inv (h : Inv c s chain ended) (hfile : s.theFile = true) {i : ℕ}
    (hr : s.inFlight[i]? = some r) (ok : Bool) : Gives (handleWriteCompletion c ok r)
      (fun _ => Stays c ended s) (fun _ => False) (answered i r ok s) := by
  have ha := h.active hfile
  obtain ⟨hid, hi⟩ := ha.id_eq hr
  have hrequests : s.requestsSent = s.repliesReceived + s.inFlight.length := ha.requests
  unfold handleWriteCompletion
  cases ok with
  | false =>
    rw [if_neg nofun, gives_modify]
    exact h.problem hfile hr false s.repliesReceived
  | true =>
    rw [if_pos rfl]
    unfold expectedReply
    simp only [gives_bind, gives_get, gives_must, gives_modify, gives_pure]
    refine ⟨fun _ => ⟨fun _ => ⟨fun _ => ?_, fun hlt => ?_⟩, fun hzero => ?_⟩, fun hzero => ?_⟩
    · by_cases hexp : r.id = (answered i r true s).repliesReceived + 1
      · have hid' : r.id = s.repliesReceived + 1 := hexp
        obtain rfl : i = 0 := by omega
        obtain ⟨rs, hfl⟩ := head?_eq_some_iff.mp (head?_eq_getElem?.trans hr)
        rw [if_pos (decide_eq_true hexp)]
        have hsuccess := handleWriteCompletionSuccess_inv hkey h hfile hfl
          (Memory.write s.disk r.offset r.buf)
        rwa [show rs = s.inFlight.eraseIdx 0 by rw [hfl]; rfl] at hsuccess
      · rw [if_neg (fun h => hexp (of_decide_eq_true h)), gives_modify]
        exact h.problem hfile hr true (s.repliesReceived + 1)
    · exact hlt (by rw [hid, show (answered i r true s).requestsSent = _ from hrequests]; omega)
    · exact hzero (by rw [hid]; omega)
    · exact hzero (by rw [show (answered i r true s).requestsSent = _ from hrequests]; omega)

/-- **An answer keeps the owners apart**, whichever request it is for. -/
theorem completed_inv (h : Inv c s chain ended) (i : ℕ) (ok : Bool) :
    Gives (completed c i ok) (fun _ => Stays c ended s) (fun _ => False) s := by
  unfold completed
  simp only [gives_bind, gives_get]
  cases hr : s.inFlight[i]? with
  | none => exact (gives_pure _).mpr ⟨⟨chain, h⟩, rfl, id⟩
  | some r =>
    simp only [gives_bind, gives_modify, writeCompleted, gives_get]
    cases hfile : s.theFile with
    | false =>
      have hf := h.finished hfile
      have hne : s.inFlight ≠ [] := ne_nil_of_mem (mem_of_getElem? hr)
      rw [show (answered i r ok s).theFile = false from hfile, if_neg (by simp), gives_modify]
      refine ⟨⟨chain, .of_finished (h.owned.drop hr ok) (ne_true_of_eq_false hfile) ?_ h.buf⟩,
        rfl, id⟩
      exact { hf with complete := fun hlock => absurd (hf.complete hlock).1 hne }
    | true =>
      rw [show (answered i r ok s).theFile = true from hfile, if_pos rfl]
      exact handleWriteCompletion_inv hkey h hfile hr ok

theorem deliver_inv (answers : List (ℕ × Bool)) (h : Inv c s chain ended) :
    Gives (deliver c answers) (fun _ => Stays c ended s) (fun _ => False) s := by
  induction answers generalizing s chain with
  | nil => exact (gives_pure _).mpr ⟨⟨_, h⟩, rfl, id⟩
  | cons answer answers ih =>
    obtain ⟨i, ok⟩ := answer
    rw [deliver, gives_bind]
    refine (completed_inv hkey h i ok).imp ?_
    rintro _ s1 ⟨⟨chain1, h1⟩, hkept1⟩
    refine (ih h1).imp ?_
    rintro _ s2 ⟨h2, hkept2⟩
    exact ⟨h2, hkept2.theBuf.trans hkept1.theBuf, hkept2.sidNext ∘ hkept1.sidNext⟩

theorem answerNow_inv (h : Inv c s chain ended) :
    Gives (answerNow c) (fun _ => Stays c ended s) (fun _ => False) s := by
  unfold answerNow
  simp only [gives_bind, gives_get]
  cases hreplies : s.replies with
  | nil => exact (gives_pure _).mpr ⟨⟨_, h⟩, rfl, id⟩
  | cons answers replies =>
    refine (deliver_inv hkey answers (h.withReplies replies)).imp ?_
    exact fun _ _ h => ⟨h.1, h.2.theBuf, h.2.sidNext⟩

end

/-! ## Requests -/

/-- An exception has left this behind. -/
def Failed (c : Config) (s : Swapout) : Prop :=
  ∃ chain, Owned c s chain ∧ s.lock = .writing ∧ BufOk c s.theBuf

theorem Inv.failed (h : Inv c s chain false) : Failed c s := by
  refine ⟨chain, h.owned, ?_, h.buf⟩
  cases hfile : s.theFile with
  | true => exact (h.active hfile).lock
  | false => exact (h.finished hfile).still rfl

theorem reserveSlotForWriting_gives {Q : ℕ → Swapout → Prop} {E : Swapout → Prop}
    (h : Owned c s chain)
    (hQ : ∀ sid slots, s.slots = some sid :: slots → Q sid (s.reserve sid slots))
    (hE : ∀ slots, (∀ sid rest, s.slots ≠ some sid :: rest) →
      slots.reduceOption = s.slots.reduceOption → E { s with slots }) :
    Gives (reserveSlotForWriting c) Q E s := by
  unfold reserveSlotForWriting
  simp only [gives_bind, gives_get]
  cases hslots : s.slots with
  | nil => exact gives_throw.mpr (hE s.slots (by simp [hslots]) rfl)
  | cons o slots =>
    cases o with
    | none =>
      exact gives_throw.mpr (hE slots (by simp [hslots]) (by rw [hslots]; rfl))
    | some sid =>
      simp only [gives_bind, gives_defined, gives_modify, gives_pure]
      refine ⟨h.valid sid (mem_append_right _ ?_), hQ sid slots hslots⟩
      rw [hslots, reduceOption_cons_of_some]
      exact mem_cons_self

section Reserve

variable {sid : ℕ} {slots : List (Option ℕ)} {sidFirst sidCurrent sidNext : Option ℕ}

theorem Owned.not_mem_of_slots (h : Owned c s chain) (hslots : s.slots = some sid :: slots) :
    sid ∉ s.reserved := by
  intro hmem
  have hnodup := (nodup_append.mp h.nodup).2.2
  rw [hslots, reduceOption_cons_of_some] at hnodup
  exact hnodup sid hmem sid mem_cons_self rfl

section

variable (hheld : (sidCurrent.toList ++ sidNext.toList).Perm
  (sid :: (s.sidCurrent.toList ++ s.sidNext.toList)))
include hheld

/-- A new slot is held from now on. -/
theorem Owned.reserve (h : Owned c s chain) (hslots : s.slots = some sid :: slots) :
    Owned c { s.reserve sid slots with sidFirst, sidCurrent, sidNext } chain := by
  have hnodup := h.nodup
  have hvalid := h.valid
  rw [hslots, reduceOption_cons_of_some, ← singleton_append, ← append_assoc] at hnodup hvalid
  refine ⟨(h.perm.append_right [sid]).trans ?_, hnodup, hvalid, h.walk.congr fun x hx => ?_⟩
  · rw [perm_iff_count]
    intro x
    have hcount := hheld.count_eq x
    simp only [held, Swapout.reserve, Swapout.clear, count_append, count_cons, count_nil]
      at hcount ⊢
    omega
  · show (update s.slices sid _ x).next = _
    have hne : x ≠ sid := fun heq => by
      refine h.not_mem_of_slots hslots (heq ▸ h.perm.mem_iff.mpr ?_)
      exact mem_append_right _ (mem_append_left _ hx)
    rw [update_of_ne hne]
    rfl

theorem Active.reserve (ha : Active s chain false) (hfirst : sidFirst = none ↔ sidCurrent = none) :
    Active { s.reserve sid slots with sidFirst, sidCurrent, sidNext } chain false := by
  refine { ha with cleared := fun x hx => ?_, first := fun _ => hfirst, last := nofun }
  show (update s.slices sid _ x).next = none
  by_cases hne : x = sid
  · rw [hne, update_self]
  · rw [update_of_ne hne]
    refine ha.cleared x ?_
    rw [held, mem_append] at hx ⊢
    refine hx.imp id fun hx => ?_
    exact (mem_cons.mp (hheld.mem_iff.mp hx)).resolve_left hne

theorem Inv.reserve (h : Inv c s chain false) (hfile : s.theFile = true)
    (hslots : s.slots = some sid :: slots) (hfirst : sidFirst = none ↔ sidCurrent = none) :
    Inv c { s.reserve sid slots with sidFirst, sidCurrent, sidNext } chain false :=
  .of_active (h.owned.reserve hheld hslots) hfile ((h.active hfile).reserve hheld hfirst) h.buf

end

end Reserve

/-- The request owns its slot now. -/
theorem Inv.issue (h : Inv c s chain false) (hfile : s.theFile = true) {sidFirst sidCurrent : ℕ}
    (hfirst : s.sidFirst = some sidFirst) (hcurrent : s.sidCurrent = some sidCurrent) :
    Inv c (s.issue (s.request c sidFirst sidCurrent)) chain s.sidNext.isNone := by
  have ha := h.active hfile
  refine .of_active ⟨h.owned.perm.trans ?_, h.owned.nodup, h.owned.valid, h.owned.walk⟩ hfile ?_
    (.inl rfl)
  · rw [perm_iff_count]
    intro x
    simp only [held, Swapout.issue, request, hcurrent, map_append, map_cons, map_nil,
      count_append, toList_some, toList_none, count_nil]
    omega
  · refine ⟨ha.lock, ha.anchor, ha.freed, ?_, ?_, ?_, ?_, ?_, ?_, ?_⟩
    · simp only [Swapout.issue, request, map_append, ha.sent, append_assoc]
    · simp only [Swapout.issue, request, map_append, ha.ids, length_append,
        length_singleton, map_cons, map_nil, range'_1_concat, ha.requests]
      congr 2
      omega
    · simp only [Swapout.issue, length_append, length_singleton, ha.requests]
      omega
    · show Row _ _ s.sidCurrent _
      rw [hcurrent]
      exact ha.row.append rfl
    · intro x hx
      refine ha.cleared x ?_
      simp only [held, Swapout.issue, request, hcurrent, map_append, map_cons, map_nil,
        toList_some, toList_none, append_nil, append_assoc] at hx ⊢
      exact hx
    · intro hover
      show s.sidFirst = none ↔ s.sidNext = none
      exact iff_of_false (by simp [hfirst]) (ne_none_iff_isSome.mpr (isNone_eq_false_iff.mp hover))
    · intro hover
      exact ⟨isNone_iff_eq_none.mp hover, rfl⟩

theorem Inv.withSlots (h : Inv c s chain false) {slots : List (Option ℕ)}
    (hslots : slots.reduceOption = s.slots.reduceOption) : Failed c { s with slots } := by
  obtain ⟨chain, howned, hlock, hbuf⟩ := h.failed
  exact ⟨chain, ⟨howned.perm, hslots ▸ howned.nodup, hslots ▸ howned.valid, howned.walk⟩,
    hlock, hbuf⟩

theorem ensureFirst_inv (h : Inv c s chain false) (hfile : s.theFile = true) : Gives (ensureFirst c)
      (fun _ s' => Inv c s' chain false ∧ s'.theFile = true ∧ s'.sidNext = s.sidNext ∧
        ∃ first current, s'.sidFirst = some first ∧ s'.sidCurrent = some current) (Failed c) s := by
  have ha := h.active hfile
  unfold ensureFirst
  simp only [gives_bind, gives_get, gives_whenever]
  refine ⟨fun hnone => ?_, fun hsome => ?_⟩
  · refine reserveSlotForWriting_gives h.owned (fun sid slots hslots => ?_) fun _ _ => h.withSlots
    rw [gives_modify]
    have hcurrent : s.sidCurrent = none := (ha.first rfl).mp hnone
    have hheld : ((some sid).toList ++ s.sidNext.toList).Perm
        (sid :: (s.sidCurrent.toList ++ s.sidNext.toList)) := by rw [hcurrent]; rfl
    exact ⟨h.reserve hheld hfile hslots (by simp), hfile, rfl, sid, sid, rfl, rfl⟩
  · obtain ⟨first, hfirst⟩ := ne_none_iff_exists'.mp hsome
    obtain ⟨current, hcurrent⟩ := ne_none_iff_exists'.mp fun hnone =>
      hsome ((ha.first rfl).mpr hnone)
    exact ⟨h, hfile, trivial, first, current, hfirst, hcurrent⟩

/-! ## Calls -/

/-- What holds between the calls. -/
def Between (c : Config) (ended : Bool) (s : Swapout) : Prop :=
  (∃ chain, Inv c s chain ended) ∧ s.sidNext = none

/-- The handler of all exceptions. -/
theorem Failed.caught (h : Failed c s) (ended : Bool) :
    Between c ended ((s.writeError c).finishedWriting) := by
  obtain ⟨chain, howned, hlock, hbuf⟩ := h
  exact ⟨⟨chain, howned.fail hlock hbuf ended⟩, rfl⟩

theorem Inv.withBuf (h : Inv c s chain ended) {buf : List UInt8} (hbuf : BufOk c buf) (n : ℕ) :
    Inv c { s with theBuf := buf, offset_ := n } chain ended :=
  h.revise hbuf n s.replies

/-- No pool has buffers of the size of a header. -/
theorem capacity_ne (c : Config) : c.capacity ≠ sizeofDbCellHeader := by
  unfold Config.capacity Sbuf.grossSize
  cases hfind : Sbuf.bufSizes.find? (c.slotSize % 2 ^ 32 ≤ ·) with
  | some size =>
    have hall : ∀ size ∈ Sbuf.bufSizes, size ≠ sizeofDbCellHeader := by decide
    exact hall size (mem_of_find?_eq_some hfind)
  | none =>
    have hlt := find?_eq_none.mp hfind 65536 (by decide)
    rw [decide_eq_true_eq, Nat.not_le] at hlt
    exact (lt_trans (by decide) hlt).ne'

theorem startBuf_inv (h : Inv c s chain false) : Gives (startBuf c)
      (fun _ s' => Inv c s' chain false ∧ s'.theBuf ≠ [] ∧ s'.theFile = s.theFile ∧
        s'.sidNext = s.sidNext ∧ (s.theBuf = [] → s'.theBuf.length < c.capacity)) (Failed c) s := by
  unfold startBuf
  simp only [gives_bind, gives_get, gives_whenever, gives_must, gives_modify]
  refine ⟨fun _ => ⟨fun hle => ?_, fun _ => h.failed⟩, fun hne => ⟨h, hne, trivial, trivial, ?_⟩⟩
  · have hbuf : BufOk c (replicate sizeofDbCellHeader 0) := by
      refine .inr ⟨?_, ?_⟩ <;> rw [length_replicate]
      exact hle
    refine ⟨h.withBuf hbuf s.offset_, cons_ne_nil _ _, trivial, trivial, fun _ => ?_⟩
    exact lt_of_le_of_ne hle (capacity_ne c).symm
  · exact fun hnil => absurd hnil hne

theorem writeToBuffer_inv (h : Inv c s chain false) (hnext : s.sidNext = none) (buf : List UInt8)
    (hne : buf ≠ []) : Gives (writeToBuffer c buf)
      (fun n s' => Inv c s' chain false ∧ s'.theBuf ≠ [] ∧ s'.theFile = s.theFile ∧
        s'.sidNext = none ∧ (s.theBuf = [] → 0 < n)) (Failed c) s := by
  unfold writeToBuffer
  simp only [gives_bind]
  refine (startBuf_inv h).imp ?_
  rintro _ s1 ⟨h1, hbuf1, hfile1, hnext1, hroom⟩
  simp only [gives_bind, gives_get, gives_modify, gives_pure]
  have hok := h1.buf.resolve_left hbuf1
  refine ⟨h1.withBuf (.inr ?_) _, ?_, hfile1, hnext1.trans hnext, fun hnil => ?_⟩
  · rw [length_append, length_take]
    omega
  · exact append_ne_nil_of_left_ne_nil hbuf1 _
  · have hpos := length_pos_of_ne_nil hne
    have hlt := hroom hnil
    omega

section

variable (hkey : ¬ (c.key.k0 = 0 ∧ c.key.k1 = 0))
include hkey

/-- **A request keeps the owners apart.** -/
theorem writeToDisk_inv (h : Inv c s chain false) (hfile : s.theFile = true)
    (hbuf : s.theBuf ≠ []) : Gives (writeToDisk c)
      (fun _ s' => (∃ chain, Inv c s' chain s.sidNext.isNone) ∧ s'.theBuf = [] ∧ s'.sidNext = none)
      (Failed c) s := by
  have hlen : sizeofDbCellHeader ≤ s.theBuf.length := (h.buf.resolve_left hbuf).1
  unfold writeToDisk
  simp only [gives_bind, gives_get, gives_defined]
  refine ⟨hfile, hlen, (h.active hfile).first rfl, (ensureFirst_inv h hfile).imp ?_⟩
  rintro _ s1 ⟨h1, hfile1, hnext1, first, current, hfirst, hcurrent⟩
  simp only [gives_bind, gives_get]
  rw [hfirst, hcurrent]
  have hissued := h1.issue hfile1 hfirst hcurrent
  rw [hnext1] at hissued
  exact (answerNow_inv hkey hissued).never fun _ s2 h2 => ⟨h2.1, h2.2.theBuf, h2.2.sidNext rfl⟩

/-- A full buffer is written. -/
theorem overflow_inv (h : Inv c s chain false) (hfile : s.theFile = true)
    (hbuf : s.theBuf ≠ []) (hnext : s.sidNext = none) : Gives (overflow c)
      (fun _ s' => (∃ chain, Inv c s' chain false) ∧ s'.theBuf = [] ∧ s'.sidNext = none)
      (Failed c) s := by
  have ha := h.active hfile
  unfold overflow
  simp only [gives_bind, gives_get, gives_must]
  refine ⟨fun _ => ?_, absurd hnext⟩
  refine reserveSlotForWriting_gives h.owned (fun sid slots hslots => ?_) fun _ _ => h.withSlots
  simp only [gives_bind, gives_modify]
  have hheld := held_next_perm hnext sid
  have hinv : Inv c { s.reserve sid slots with sidNext := some sid } chain false :=
    h.reserve hheld hfile hslots (ha.first rfl)
  refine (writeToDisk_inv hkey hinv hfile hbuf).imp ?_
  rintro _ s' ⟨h', hbuf', hnext'⟩
  simp only [gives_bind, gives_get, gives_must]
  exact ⟨fun _ => ⟨h', hbuf', hnext'⟩, absurd hnext'⟩

theorem writeLoop_inv {fuel : ℕ} {buf : List UInt8} (h : Inv c s chain false)
    (hnext : s.sidNext = none)
    (hfuel : buf.length + 2 ≤ fuel ∨ s.theBuf = [] ∧ buf.length + 1 ≤ fuel) :
    Gives (writeLoop c fuel buf) (fun _ => Between c false) (Failed c) s := by
  induction fuel generalizing buf s chain with
  | zero => omega
  | succ fuel ih =>
    rw [writeLoop]
    simp only [gives_bind, gives_get, gives_whenever]
    refine ⟨fun hgo => ?_, fun _ => ⟨⟨chain, h⟩, hnext⟩⟩
    refine (writeToBuffer_inv h hnext buf hgo.1).imp ?_
    rintro n s1 ⟨h1, hbuf1, hfile1, hnext1, hpos⟩
    simp only [gives_bind, gives_whenever]
    refine ⟨fun hmore => ?_, fun hdone => ?_⟩
    · refine (overflow_inv hkey h1 (hfile1.trans hgo.2) hbuf1 hnext1).imp ?_
      rintro _ s2 ⟨⟨chain2, h2⟩, hbuf2, hnext2⟩
      refine ih h2 hnext2 (.inr ⟨hbuf2, ?_⟩)
      rw [length_drop]
      rcases hfuel with hfuel | ⟨hnil, hfuel⟩
      · omega
      · have := hpos hnil
        have := length_pos_of_ne_nil hgo.1
        omega
    · rw [not_not.mp hdone]
      have hpos := length_pos_of_ne_nil hgo.1
      cases fuel with
      | zero => omega
      | succ fuel =>
        rw [writeLoop]
        simp only [gives_bind, gives_get, gives_whenever]
        exact ⟨fun hgo => absurd rfl hgo.1, fun _ => ⟨⟨chain, h1⟩, hnext1⟩⟩

section

variable (h : Between c false s)
include h

theorem tryWrite_inv (buf : List UInt8) :
    Gives (tryWrite c buf) (fun _ => Between c false) (Failed c) s := by
  obtain ⟨⟨chain, h⟩, hnext⟩ := h
  unfold tryWrite
  simp only [gives_bind, gives_get, gives_must]
  exact ⟨fun _ => writeLoop_inv hkey h hnext (.inl le_rfl), fun _ => h.failed⟩

/-- **Writing keeps the owners apart.** -/
theorem write_inv (buf : List UInt8) :
    Gives (write c buf) (fun _ => Between c false) (fun _ => False) s := by
  unfold write
  rw [gives_tryCatch, gives_bind]
  refine (tryWrite_inv hkey h buf).mono (fun _ s' h' => (gives_pure _).mpr h') fun s' h' => ?_
  simp only [gives_bind, gives_modify, gives_pure]
  exact h'.caught false

theorem flush_inv (hfile : s.theFile = true) (hbuf : s.theBuf ≠ []) :
    Gives (flush c) (fun _ => Between c true) (fun _ => False) s := by
  obtain ⟨⟨chain, h⟩, hnext⟩ := h
  unfold flush
  simp only [gives_bind, gives_get, gives_defined, gives_tryCatch]
  refine ⟨hbuf, (writeToDisk_inv hkey h hfile hbuf).mono ?_ fun s' h' => ?_⟩
  · rintro _ s' ⟨h', -, hnext'⟩
    rw [hnext] at h'
    exact ⟨h', hnext'⟩
  · simp only [gives_bind, gives_modify]
    exact h'.caught true

/-- **Closing keeps the owners apart.** -/
theorem close_inv {how : How} (hbuf : s.theFile = true → how = .wroteAll → s.theBuf ≠ []) :
    Gives (close c how) (fun _ => Between c true) (fun _ => False) s := by
  unfold close
  simp only [gives_bind, gives_get, gives_whenever]
  refine ⟨fun hfile => ?_, fun hfile => ?_⟩
  · cases how with
    | wroteAll => exact flush_inv hkey h hfile (hbuf hfile rfl)
    | writerGone =>
      obtain ⟨chain, h⟩ := h.1
      simp only [gives_bind, gives_modify]
      exact h.failed.caught true
  · obtain ⟨⟨chain, h⟩, hnext⟩ := h
    have hf := h.finished (eq_false_iff.mpr hfile)
    exact ⟨⟨chain, .of_finished h.owned hfile { hf with still := by simp } h.buf⟩, hnext⟩

end

/-- **Disconnecting frees the chain.** -/
theorem disconnect_inv (h : Inv c s chain ended) (hfile : s.theFile = false)
    (hlock : s.lock = .writing) :
    Gives (disconnect c) (fun _ => Between c true) (fun _ => False) s := by
  have hf := h.finished hfile
  have hnodup := (nodup_append.mp (nodup_append.mp h.owned.nodup_all).2.1).1
  obtain ⟨slices, hfree⟩ := freed_freeChainAt h.owned.walk hnodup h.owned.walk_length
  unfold disconnect
  simp only [gives_bind, gives_get, gives_defined, gives_modify]
  refine ⟨hlock, ?_⟩
  rw [freeChain, if_neg hkey, hfree]
  refine ⟨⟨[], .of_finished ⟨h.owned.perm.trans ?_, h.owned.nodup, h.owned.valid, rfl⟩
    (ne_true_of_eq_false hfile)
    ⟨hf.current, hf.next, by simp, by simp, fun _ => rfl⟩ h.buf⟩, hf.next⟩
  rw [perm_iff_count]
  intro sid
  simp only [held, count_append, count_nil]
  omega

end

/-! ## Runs -/

/-- What may happen to a writer next. -/
inductive Event
  | write (buf : List UInt8)
  | close (how : How)
  /-- the disk answers -/
  | completed (i : ℕ) (ok : Bool)
  /-- the entry is disconnected, after the writer has called back -/
  | disconnect
  /-- the other slices of the map change -/
  | others (slices : ℕ → StoreMapSlice)

namespace Event

/-- What the event does. -/
def handle (c : Config) : Event → Io Unit
  | write buf => do let _ ← Rock.write c buf
  | close how => Rock.close c how
  | completed i ok => Rock.completed c i ok
  | disconnect => Rock.disconnect c
  | others slices => modify fun s => { s with slices }

/-- Whether the event may happen. Nothing is written to an entry that was closed or
disconnected; there is something in the buffer when all was written; and nobody
touches the slices that the entry owns. -/
def Allowed (ended : Bool) (s : Swapout) : Event → Prop
  | write _ => ended = false
  | close how => ended = false ∧ (s.theFile = true → how = .wroteAll → s.theBuf ≠ [])
  | completed _ _ => True
  | disconnect => s.theFile = false ∧ s.lock = .writing
  | others slices => ∀ sid ∈ s.reserved, sid ∉ s.freed → slices sid = s.slices sid

/-- Whether the entry is closed or disconnected then. -/
def endedAfter (ended : Bool) : Event → Bool
  | close _ | disconnect => true
  | _ => ended

end Event

/-- **What a writer can come to**, starting from `s₀`. -/
inductive Reach (c : Config) (s₀ : Swapout) : Bool → Swapout → Prop
  | start : Reach c s₀ false s₀
  | step {ended : Bool} {s s' : Swapout} {e : Event} : Reach c s₀ ended s → e.Allowed ended s →
      (e.handle c).run s = some (.ok (), s') → Reach c s₀ (e.endedAfter ended) s'

theorem Owned.mem_of_held (h : Owned c s chain) {sid : ℕ} (hmem : sid ∈ chain ++ s.held) :
    sid ∈ s.reserved ∧ sid ∉ s.freed :=
  ⟨h.perm.mem_iff.mpr (mem_append_right _ hmem), fun hfree =>
    (nodup_append.mp h.nodup_all).2.2 sid hfree sid hmem rfl⟩

theorem Between.others (h : Between c ended s) {slices : ℕ → StoreMapSlice}
    (hslices : ∀ sid ∈ s.reserved, sid ∉ s.freed → slices sid = s.slices sid) :
    Between c ended { s with slices } := by
  obtain ⟨⟨chain, h⟩, hnext⟩ := h
  have hkeep : ∀ sid ∈ chain ++ s.held, (slices sid).next = s.next sid := fun sid hmem => by
    obtain ⟨hres, hfree⟩ := h.owned.mem_of_held hmem
    rw [hslices sid hres hfree]
    rfl
  have hwalk := h.owned.walk.congr fun sid hmem => hkeep sid (mem_append_left _ hmem)
  have howned : Owned c { s with slices } chain := { h.owned with walk := hwalk }
  refine ⟨⟨chain, ?_⟩, hnext⟩
  by_cases hfile : s.theFile = true
  · have ha := h.active hfile
    refine .of_active howned hfile { ha with cleared := fun sid hmem => ?_ } h.buf
    exact (hkeep sid (mem_append_right _ hmem)).trans (ha.cleared sid hmem)
  · have hf := h.finished (eq_false_iff.mpr hfile)
    exact .of_finished howned hfile { hf with } h.buf

/-- **Whatever happens, the owners are kept apart.** -/
theorem handle_inv (hkey : ¬ (c.key.k0 = 0 ∧ c.key.k1 = 0)) (h : Between c ended s) {e : Event}
    (he : e.Allowed ended s) :
    Gives (e.handle c) (fun _ => Between c (e.endedAfter ended)) (fun _ => False) s := by
  cases e with
  | write buf =>
    obtain rfl : ended = false := he
    show Gives (do let _ ← write c buf) _ _ s
    rw [gives_bind]
    exact (write_inv hkey h buf).imp fun _ _ h' => (gives_pure _).mpr h'
  | close how =>
    obtain ⟨rfl, hbuf⟩ := he
    exact close_inv hkey h hbuf
  | completed i ok =>
    obtain ⟨⟨chain, h⟩, hnext⟩ := h
    exact (completed_inv hkey h i ok).imp fun _ _ h' => ⟨h'.1, h'.2.sidNext hnext⟩
  | disconnect =>
    obtain ⟨chain, h⟩ := h.1
    exact disconnect_inv hkey h he.1 he.2
  | others slices => exact (gives_modify _).mpr (h.others he)

theorem Reach.between (hkey : ¬ (c.key.k0 = 0 ∧ c.key.k1 = 0)) {s₀ : Swapout}
    (h0 : Between c false s₀) (h : Reach c s₀ ended s) : Between c ended s := by
  induction h with
  | start => exact h0
  | step _ he hrun ih =>
    obtain ⟨_, _, hx, hq⟩ := handle_inv hkey ih he
    rw [hrun] at hx
    cases hx
    exact hq

/-- A writer before its first call. -/
def Swapout.new (slices : ℕ → StoreMapSlice) (slots : List (Option ℕ))
    (replies : List (List (ℕ × Bool))) (disk : ℕ → UInt8) : Swapout :=
  { slices, slots, replies, disk }

theorem between_new {slices : ℕ → StoreMapSlice} {slots : List (Option ℕ)}
    {replies : List (List (ℕ × Bool))} {disk : ℕ → UInt8} (hnodup : slots.reduceOption.Nodup)
    (hvalid : ∀ sid ∈ slots.reduceOption, sid < c.sliceLimit) :
    Between c false (.new slices slots replies disk) := by
  refine ⟨⟨[], ⟨.refl _, hnodup, hvalid, rfl⟩, ?_, .inl rfl⟩, rfl⟩
  exact ⟨rfl, rfl, rfl, rfl, rfl, rfl, ⟨rfl, rfl⟩, nofun, fun _ => Iff.rfl, nofun⟩

/-- **Slots are neither lost nor freed twice.** Whatever is written, reserved and
answered, and in whatever order: no assertion fails, and once the entry is complete
or disconnected and the disk has answered everything, each slot that was reserved
was freed once or is in the chain of the complete entry, and not both. The chain is
in the order of the writes. -/
theorem slots_owned_once (hkey : ¬ (c.key.k0 = 0 ∧ c.key.k1 = 0)) {slices : ℕ → StoreMapSlice}
    {slots : List (Option ℕ)} {replies : List (List (ℕ × Bool))} {disk : ℕ → UInt8}
    (hnodup : slots.reduceOption.Nodup) (hvalid : ∀ sid ∈ slots.reduceOption, sid < c.sliceLimit)
    (h : Reach c (.new slices slots replies disk) ended s) :
    (∀ e : Event, e.Allowed ended s → ∃ s', (e.handle c).run s = some (.ok (), s')) ∧
      (s.lock ≠ .writing → s.inFlight = [] →
        ∃ chain, Walk s.next none s.start chain ∧ s.reserved.Perm (s.freed ++ chain) ∧
          (s.freed ++ chain).Nodup ∧
          (s.lock = .reading → s.freed = [] ∧ chain = s.sent.map (·.sidCurrent)) ∧
          (s.lock = .unlocked → chain = [])) := by
  have hbetween := h.between hkey (between_new hnodup hvalid)
  refine ⟨fun e he => ?_, fun hlock hfl => ?_⟩
  · obtain ⟨r, s', hrun, hr⟩ := handle_inv hkey hbetween he
    cases r with
    | ok _ => exact ⟨s', hrun⟩
    | error _ => exact hr.elim
  · obtain ⟨⟨chain, hinv⟩, -⟩ := hbetween
    have hfile : s.theFile = false := eq_false_iff.mpr fun hfile =>
      hlock (hinv.active hfile).lock
    have hf := hinv.finished hfile
    have hheld : s.held = [] := by rw [held, hfl, hf.current, hf.next]; rfl
    have hperm := hinv.owned.perm
    have hnodup' := hinv.owned.nodup_all
    rw [hheld, List.append_nil] at hperm hnodup'
    exact ⟨chain, hinv.owned.walk, hperm, hnodup',
      fun hread => ⟨(hf.complete hread).2.1, (hf.complete hread).2.2.symm⟩, hf.gone⟩

/-- The state after an event. -/
def Event.after (c : Config) (e : Event) (s : Swapout) : Swapout :=
  ((e.handle c).run s).elim s Prod.snd

/-- A run can be evaluated. -/
theorem Reach.after {s₀ : Swapout} (h : Reach c s₀ ended s) {e : Event} (he : e.Allowed ended s)
    (hok : ((e.handle c).run s).map (fun x => x.1.isOk) = some true) :
    Reach c s₀ (e.endedAfter ended) (e.after c s) := by
  obtain ⟨⟨r, s'⟩, hrun, hr⟩ := map_eq_some_iff.mp hok
  cases r with
  | error _ => cases hr
  | ok _ =>
    rw [Event.after, hrun]
    exact .step h he hrun

/-- Slots of 64 bytes, and an entry with the given key. -/
def smallConfig (key : CacheKey) : Config := ⟨64, 1000, 4, key, 1⟩

/-- A writer that is given the slots 1 and 0. -/
def smallSwapout : Swapout := .new (fun _ => ⟨0, none⟩) [some 1, some 0] [] fun _ => 0

/-- Thirty bytes are written to two slots, and the disk answers in order. -/
theorem slots_owned_once_two :
    ∃ s, Reach (smallConfig ⟨1, 0⟩) smallSwapout true s ∧ s.lock = .reading ∧ s.reserved = [1, 0] ∧
      ∃ chain, Walk s.next none s.start chain ∧ s.reserved.Perm (s.freed ++ chain) ∧
        (s.freed ++ chain).Nodup ∧
        (s.lock = .reading → s.freed = [] ∧ chain = s.sent.map (·.sidCurrent)) ∧
        (s.lock = .unlocked → chain = []) := by
  have h1 := Reach.after (.start : Reach (smallConfig ⟨1, 0⟩) smallSwapout _ _)
    (e := .write (List.replicate 30 7)) rfl (by decide +kernel)
  have h2 := h1.after (e := .completed 0 true) trivial (by decide +kernel)
  have h3 := h2.after (e := .close .wroteAll) ⟨rfl, fun _ _ => by decide +kernel⟩
    (by decide +kernel)
  have h4 := h3.after (e := .completed 0 true) trivial (by decide +kernel)
  have hlock := (slots_owned_once (by decide) (by decide) (by decide) h4).2 (by decide +kernel)
    (by decide +kernel)
  exact ⟨_, h4, by decide +kernel, by decide +kernel, hlock⟩

/-- With the key zero, the chain of a disconnected entry is lost: slot 0 is neither
free nor in a chain. -/
theorem slot_lost_of_zero_key :
    ∃ s, Reach (smallConfig ⟨0, 0⟩) smallSwapout true s ∧ s.lock = .unlocked ∧ s.inFlight = [] ∧
      s.reserved = [1, 0] ∧ s.freed = [1] ∧ s.start = none := by
  have h1 := Reach.after (.start : Reach (smallConfig ⟨0, 0⟩) smallSwapout _ _)
    (e := .write (List.replicate 30 7)) rfl (by decide +kernel)
  have h2 := h1.after (e := .completed 0 true) trivial (by decide +kernel)
  have h3 := h2.after (e := .close .writerGone) ⟨rfl, fun _ h => by cases h⟩ (by decide +kernel)
  have h4 := h3.after (e := .disconnect) ⟨by decide +kernel, by decide +kernel⟩ (by decide +kernel)
  exact ⟨_, h4, by decide +kernel⟩

end Rock
