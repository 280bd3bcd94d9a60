import Revalle.Rock.SlotOwnership

/-!
# What was written is what is read

An entry is written in pieces, while the disk answers in order and there is a slot
whenever one is needed. The cells that are sent to the disk have the content of the
entry when their payloads are put together, with what is in the buffer (`Written`).
All cells but the last one are full, since only a full buffer that overflows is
written before the entry is closed (`Growing`); so the last one is not empty. A cell
that was answered is on the disk and stays there, because cells in different slots
do not overlap (`OnDisk`), and the map knows its size and the cell behind it.

The reader walks the map for the cell with the offset, from where it was or from the
start, and reads no further than to the end of that cell.

All of this needs a buffer that is not larger than a slot, or an entry that fits one
slot. `MemBlob` takes all the memory it gets, and it gets what the pools have: with
slots of another size than theirs, cells are longer than slots.
-/

namespace Rock

open Ipc Throwing Linked Swapout List Option Nat Memory

@[simp] theorem length_littleEndian (n x : ℕ) : (littleEndian n x).length = n := by
  induction n generalizing x with
  | zero => rfl
  | succ n ih => rw [littleEndian, length_cons, ih]

@[simp] theorem length_bytes (h : DbCellHeader) : h.bytes.length = sizeofDbCellHeader := by
  simp [DbCellHeader.bytes, sizeofDbCellHeader]

theorem len_eq (r : WriteRequest) : r.len = sizeofDbCellHeader + r.payload.length := by
  rw [WriteRequest.len, WriteRequest.buf, length_append, length_bytes]

/-- Slots with room for more than a header, which a buffer can count, and an entry with a
key. -/
structure Config.Plain (c : Config) : Prop where
  slotSize : sizeofDbCellHeader < c.slotSize
  lt : c.slotSize < 2 ^ 32
  key : ¬ (c.key.k0 = 0 ∧ c.key.k1 = 0)

/-- A buffer is not smaller than a slot. -/
theorem Config.Plain.le_capacity {c : Config} (hc : c.Plain) : c.slotSize ≤ c.capacity := by
  rw [Config.capacity, mod_eq_of_lt hc.lt]
  exact Sbuf.le_grossSize c.slotSize

/-- What is left of a slot for the content. -/
def Config.room (c : Config) : ℕ := c.slotSize - sizeofDbCellHeader

/-- **There is room for so many bytes** in `n` slots. Unless the buffers have the size of a
slot, the bytes must fit the first. -/
structure Config.Room (c : Config) (n total : ℕ) : Prop where
  le : total ≤ n * c.room
  fits : c.capacity = c.slotSize ∨ total ≤ c.room

theorem Config.Room.mono {c : Config} {n k m : ℕ} (h : c.Room n m) (hle : k ≤ m) : c.Room n k :=
  ⟨hle.trans h.le, h.fits.imp_right hle.trans⟩

/-- A cell as it should be. -/
structure CellOk (c : Config) (r : WriteRequest) : Prop where
  offset : r.offset = c.diskOffset r.sidCurrent
  payloadSize : r.header.payloadSize = r.payload.length
  pos : 0 < r.payload.length
  le : r.payload.length ≤ c.room

/-- A cell that has been written and linked. -/
structure Stored (s : Swapout) (r : WriteRequest) : Prop where
  disk : Memory.window s.disk r.offset r.len = r.buf
  size : (s.slices r.sidCurrent).size.toNat = r.payload.length

/-- All requests that were answered are stored. -/
def OnDisk (s : Swapout) : Prop := ∃ done, s.sent = done ++ s.inFlight ∧ ∀ r ∈ done, Stored s r

/-- What answers do not change. -/
structure Same (s s' : Swapout) : Prop where
  sent : s'.sent = s.sent
  theBuf : s'.theBuf = s.theBuf
  offset_ : s'.offset_ = s.offset_
  sidFirst : s'.sidFirst = s.sidFirst
  sidCurrent : s'.sidCurrent = s.sidCurrent
  sidNext : s'.sidNext = s.sidNext
  slots : s'.slots = s.slots
  reserved : s'.reserved = s.reserved

theorem Same.refl (s : Swapout) : Same s s := ⟨rfl, rfl, rfl, rfl, rfl, rfl, rfl, rfl⟩

theorem Same.trans {s1 s2 s3 : Swapout} (h : Same s1 s2) (h' : Same s2 s3) : Same s1 s3 :=
  ⟨h'.sent.trans h.sent, h'.theBuf.trans h.theBuf, h'.offset_.trans h.offset_,
    h'.sidFirst.trans h.sidFirst, h'.sidCurrent.trans h.sidCurrent, h'.sidNext.trans h.sidNext,
    h'.slots.trans h.slots, h'.reserved.trans h.reserved⟩

/-- The disk answers in order, and without an error. -/
def InOrder (answers : List (ℕ × Bool)) : Prop := ∀ a ∈ answers, a = (0, true)

/-- Nothing has failed. -/
structure Fine (c : Config) (ended : Bool) (s : Swapout) : Prop where
  inv : ∃ chain, Inv c s chain ended
  cells : ∀ r ∈ s.sent, CellOk c r
  disk : OnDisk s
  replies : ∀ answers ∈ s.replies, InOrder answers
  state : s.theFile = true ∨ ended = true ∧ s.lock = .reading ∧ s.swap_file_sz = s.offset_

variable {c : Config} {s : Swapout} {chain : List ℕ} {ended : Bool} {r : WriteRequest}

/-! ## Answers -/

/-- Cells in different slots do not overlap. -/
theorem window_write_cell (hc : c.Plain) {q : WriteRequest} (hq : CellOk c q) (hr : CellOk c r)
    (hne : q.sidCurrent ≠ r.sidCurrent) (disk : ℕ → UInt8) :
    Memory.window (Memory.write disk r.offset r.buf) q.offset q.len
      = window disk q.offset q.len := by
  have hlen : ∀ r, CellOk c r → r.len ≤ c.slotSize := fun r hr => by
    have hle := hr.le
    have hlt := hc.slotSize
    rw [Config.room] at hle
    rw [len_eq]
    omega
  have hqlen := hlen q hq
  have hrlen := hlen r hr
  rw [hq.offset, hr.offset, Config.diskOffset, Config.diskOffset]
  rcases lt_or_gt_of_ne hne with hlt | hgt
  · refine window_write_of_le _ _ ?_
    have := mul_le_mul_left c.slotSize (succ_le_of_lt hlt)
    rw [mul_succ] at this
    omega
  · refine window_congr fun i _ => ?_
    have := mul_le_mul_left c.slotSize (succ_le_of_lt hgt)
    rw [mul_succ] at this
    rw [Memory.write]
    split
    · rw [getElem?_eq_none, getD_none]
      change r.len ≤ _
      omega
    · rfl

theorem Inv.nodup_sent (h : Inv c s chain ended) (hfile : s.theFile = true) :
    (s.sent.map (·.sidCurrent)).Nodup ∧ ∀ r ∈ s.sent, r.sidCurrent ∈ s.reserved := by
  have ha := h.active hfile
  have hall := (nodup_append.mp h.owned.nodup_all).2.1
  rw [held, ← append_assoc, ← ha.sent] at hall
  refine ⟨(nodup_append.mp hall).1, fun r hr => h.owned.perm.mem_iff.mpr ?_⟩
  rw [held, ← append_assoc chain, ← ha.sent]
  exact mem_append_right _ (mem_append_left _ (mem_map_of_mem hr))

variable {rs : List WriteRequest} {s' : Swapout} {slots : List (Option ℕ)} {buf : List UInt8}

theorem size_update (slices : ℕ → StoreMapSlice) (sid : ℕ) (size : UInt32) (x : ℕ) :
    (Function.update slices sid { slices sid with size := size } x).size =
      if x = sid then size else (slices x).size := by
  rw [Function.update_apply, apply_ite StoreMapSlice.size]

/-- What the answer to the first request does. -/
structure Appended (r : WriteRequest) (rs : List WriteRequest) (s s' : Swapout) : Prop where
  same : Same s s'
  inFlight : s'.inFlight = rs
  disk : s'.disk = Memory.write s.disk r.offset r.buf
  size : ∀ sid, (s'.slices sid).size =
    if sid = r.sidCurrent then UInt32.ofNat (r.len - sizeofDbCellHeader) else (s.slices sid).size
  replies : s'.replies = s.replies
  more : r.eof = false → s'.theFile = true
  last : r.eof = true → s'.lock = .reading ∧ s'.swap_file_sz = s'.offset_

/-- The first request is stored, and all others remain so. -/
theorem OnDisk.answered (hc : c.Plain) (h : OnDisk s) (hcells : ∀ r ∈ s.sent, CellOk c r)
    (hnodup : (s.sent.map (·.sidCurrent)).Nodup) (hfl : s.inFlight = r :: rs)
    (hl : Appended r rs s s') : OnDisk s' := by
  have hlt := hc.lt
  obtain ⟨done, hdone, hstored⟩ := h
  rw [hfl] at hdone
  rw [hdone, map_append, map_cons] at hnodup
  have hr : CellOk c r := hcells r (hdone ▸ mem_append_right _ mem_cons_self)
  refine ⟨done ++ [r], ?_, fun q hq => ?_⟩
  · rw [hl.same.sent, hl.inFlight, hdone, append_assoc]
    rfl
  rcases mem_append.mp hq with hq | hq
  · have hne : q.sidCurrent ≠ r.sidCurrent :=
      (nodup_append.mp hnodup).2.2 _ (mem_map_of_mem hq) _ mem_cons_self
    have hqcell := hcells q (hdone ▸ mem_append_left _ hq)
    refine ⟨?_, ?_⟩
    · rw [hl.disk, window_write_cell hc hqcell hr hne]
      exact (hstored q hq).disk
    · rw [hl.size, if_neg hne]
      exact (hstored q hq).size
  · obtain rfl := mem_singleton.mp hq
    refine ⟨?_, ?_⟩
    · rw [hl.disk]
      exact Memory.window_write s.disk q.offset q.buf
    · have hle := hr.le
      rw [Config.room] at hle
      rw [hl.size, if_pos rfl, len_eq, Nat.add_sub_cancel_left]
      exact UInt32.toNat_ofNat_of_lt' (by simp only [UInt32.size]; omega)

theorem handleWriteCompletionSuccess_appended (hc : c.Plain) (h : Inv c s chain ended)
    (hfile : s.theFile = true) (hfl : s.inFlight = r :: rs) :
    Gives (handleWriteCompletionSuccess c r) (fun _ => Appended r rs s) (fun _ => True) { s with
        inFlight := rs, repliesReceived := s.repliesReceived + 1
        disk := Memory.write s.disk r.offset r.buf } := by
  have ha := h.active hfile
  have hvalid := h.owned.inFlight_lt hfl
  unfold handleWriteCompletionSuccess
  simp only [gives_bind, gives_get, gives_defined]
  refine ⟨ha.anchor, linkSlot_gives h.owned ha hfl _ _ fun start slices hwalk _ hsizes => ?_⟩
  simp only [gives_bind, gives_get, gives_defined, gives_modify, gives_must, gives_whenever,
    completeEntry]
  have hsize : ∀ sid, _ = _ := fun sid =>
    (size_update slices r.sidCurrent (UInt32.ofNat (r.len - sizeofDbCellHeader)) sid).trans
      (by rw [hsizes])
  refine ⟨⟨ha.lock, hvalid⟩, fun _ => ⟨fun heof => ⟨ha.lock, hc.key, ?_⟩, fun heof => ?_⟩,
    fun _ => trivial⟩
  · obtain ⟨hcurrent, hnext⟩ := ha.last (ha.of_eof hfl heof).2
    rw [finishedWriting, noteFree_eq, noteFree_eq]
    refine ⟨⟨rfl, rfl, rfl, rfl, hcurrent.symm, hnext.symm, rfl, rfl⟩, rfl, rfl, hsize, rfl,
      fun hfalse => ?_, fun _ => ⟨rfl, rfl⟩⟩
    rw [heof] at hfalse
    cases hfalse
  · exact ⟨⟨rfl, rfl, rfl, rfl, rfl, rfl, rfl, rfl⟩, rfl, rfl, hsize, rfl, fun _ => hfile,
      fun htrue => absurd htrue heof⟩

/-- **An answer in order is fine.** -/
theorem completed_fine (hc : c.Plain) (h : Fine c ended s) : Gives (completed c 0 true)
      (fun _ s' => Fine c ended s' ∧ Same s s' ∧ s'.inFlight = s.inFlight.drop 1)
      (fun _ => False) s := by
  obtain ⟨chain, hinv⟩ := h.inv
  cases hfl : s.inFlight with
  | nil =>
    unfold completed
    simp only [gives_bind, gives_get, hfl]
    exact (gives_pure _).mpr ⟨h, .refl s, hfl⟩
  | cons r rs =>
    have hfile : s.theFile = true := by
      refine h.state.resolve_right fun hend => ?_
      cases hfile : s.theFile with
      | true => exact absurd ((hinv.active hfile).lock.symm.trans hend.2.1) (by decide)
      | false => exact cons_ne_nil r rs (hfl.symm.trans ((hinv.finished hfile).complete hend.2.1).1)
    have ha := hinv.active hfile
    have hlinked : Gives (completed c 0 true) (fun _ => Appended r rs s) (fun _ => True) s := by
      have hid := (ha.id_eq (i := 0) (r := r) (by rw [hfl]; rfl)).1
      unfold completed
      simp only [gives_bind, gives_get, hfl, getElem?_cons_zero, gives_modify, writeCompleted]
      rw [show (answered 0 r true s).theFile = true from hfile, if_pos rfl, handleWriteCompletion,
        if_pos rfl]
      unfold expectedReply
      simp only [gives_bind, gives_get, gives_must, gives_modify, gives_pure]
      refine ⟨fun _ => ⟨fun _ => ⟨fun _ => ?_, fun _ => trivial⟩, fun _ => trivial⟩,
        fun _ => trivial⟩
      have hexp : r.id = (answered 0 r true s).repliesReceived + 1 := hid
      rw [if_pos (decide_eq_true hexp)]
      have hsuccess := handleWriteCompletionSuccess_appended hc hinv hfile hfl
      have heq : { s with
          inFlight := rs, repliesReceived := s.repliesReceived + 1
          disk := Memory.write s.disk r.offset r.buf } =
          { answered 0 r true s with
            repliesReceived := (answered 0 r true s).repliesReceived + 1 } := by
        simp [answered, hfl]
      rwa [heq] at hsuccess
    refine ((completed_inv hc.key hinv 0 true).and hlinked).mono ?_ fun _ h => h.1
    rintro _ s' ⟨⟨hinv', -⟩, hl⟩
    refine ⟨⟨hinv', ?_, ?_, ?_, ?_⟩, hl.same, hl.inFlight⟩
    · rw [hl.same.sent]
      exact h.cells
    · exact h.disk.answered hc h.cells (hinv.nodup_sent hfile).1 hfl hl
    · rw [hl.replies]
      exact h.replies
    · cases heof : r.eof with
      | false => exact .inl (hl.more heof)
      | true => exact .inr ⟨(ha.of_eof hfl heof).2, hl.last heof⟩

theorem deliver_fine (hc : c.Plain) {answers : List (ℕ × Bool)} (horder : InOrder answers)
    (h : Fine c ended s) : Gives (deliver c answers)
      (fun _ s' => Fine c ended s' ∧ Same s s' ∧ s'.inFlight = s.inFlight.drop answers.length)
      (fun _ => False) s := by
  induction answers generalizing s with
  | nil => exact (gives_pure _).mpr ⟨h, .refl _, rfl⟩
  | cons a answers ih =>
    obtain rfl : a = (0, true) := horder a mem_cons_self
    rw [deliver, gives_bind]
    refine (completed_fine hc h).imp ?_
    rintro _ s1 ⟨h1, hsame1, hfl1⟩
    refine (ih (fun a ha => horder a (mem_cons_of_mem _ ha)) h1).imp ?_
    rintro _ s2 ⟨h2, hsame2, hfl2⟩
    refine ⟨h2, hsame1.trans hsame2, ?_⟩
    rw [hfl2, hfl1, drop_drop, length_cons, add_comm]

theorem answerNow_fine (hc : c.Plain) (h : Fine c ended s) :
    Gives (answerNow c) (fun _ s' => Fine c ended s' ∧ Same s s') (fun _ => False) s := by
  unfold answerNow
  simp only [gives_bind, gives_get]
  cases hreplies : s.replies with
  | nil => exact (gives_pure _).mpr ⟨h, .refl s⟩
  | cons answers replies =>
    have hrep := h.replies
    rw [hreplies] at hrep
    obtain ⟨chain, hinv⟩ := h.inv
    obtain ⟨done, hdone, hstored⟩ := h.disk
    have hfine : Fine c ended { s with replies } :=
      ⟨⟨chain, hinv.withReplies replies⟩, h.cells,
        ⟨done, hdone, fun r hr => { hstored r hr with }⟩,
        fun a ha => hrep a (mem_cons_of_mem _ ha), h.state⟩
    refine (deliver_fine hc (hrep answers mem_cons_self) hfine).imp ?_
    rintro _ s' ⟨h', hsame, -⟩
    exact ⟨h', hsame.sent, hsame.theBuf, hsame.offset_, hsame.sidFirst, hsame.sidCurrent,
      hsame.sidNext, hsame.slots, hsame.reserved⟩

/-! ## Requests -/

/-- What the requests so far say of the content, which is `data` with what is in the
buffer. -/
structure Written (data : List UInt8) (s : Swapout) : Prop where
  links : s.sidFirst :: s.sent.map (·.header.nextSlot)
    = s.sent.map (fun r => some r.sidCurrent) ++ [s.sidCurrent]
  content : data = s.sent.flatMap (·.payload) ++ s.theBuf.drop sizeofDbCellHeader
  offset_ : s.offset_ = data.length

/-- An entry that may grow, in a store that had `n` free slots. All cells but the one
in the buffer are full. -/
structure Growing (c : Config) (n : ℕ) (data : List UInt8) (s : Swapout) : Prop
    extends Written data s where
  buf : s.theBuf = [] ∨ sizeofDbCellHeader < s.theBuf.length
  slots : ∀ o ∈ s.slots, o ≠ none
  supply : s.slots.length + s.reserved.length = n
  full : ∀ r ∈ s.sent, r.payload.length = c.room
  entrySize : ∀ r ∈ s.sent, r.header.entrySize = 0
  reserved : s.reserved.length
    = s.sent.length + s.sidCurrent.toList.length + s.sidNext.toList.length
  fits : c.capacity = c.slotSize ∨ data.length ≤ c.room

variable {n : ℕ} {data : List UInt8}

theorem Written.same (h : Written data s) (hs : Same s s') : Written data s' := by
  refine ⟨?_, ?_, ?_⟩
  · rw [hs.sidFirst, hs.sent, hs.sidCurrent]
    exact h.links
  · rw [hs.sent, hs.theBuf]
    exact h.content
  · rw [hs.offset_]
    exact h.offset_

theorem Growing.same (h : Growing c n data s) (hs : Same s s') : Growing c n data s' := by
  have hwritten := h.toWritten.same hs
  obtain ⟨-, hbuf, hslots, hsupply, hfull, hentry, hreserved, hfits⟩ := h
  obtain ⟨e1, e2, e3, e4, e5, e6, e7, e8⟩ := hs
  refine ⟨hwritten, ?_, ?_, ?_, ?_, ?_, ?_, hfits⟩
  · rw [e2]; exact hbuf
  · rw [e7]; exact hslots
  · rw [e7, e8]; exact hsupply
  · rw [e1]; exact hfull
  · rw [e1]; exact hentry
  · rw [e1, e5, e6, e8]; exact hreserved

theorem Growing.not_none (h : Growing c n data s) (hne : s.slots ≠ [])
    (hnone : ∀ sid rest, s.slots ≠ some sid :: rest) : False := by
  cases hs : s.slots with
  | nil => exact hne hs
  | cons o slots =>
    obtain ⟨sid, rfl⟩ := ne_none_iff_exists'.mp (h.slots o (hs ▸ mem_cons_self))
    exact hnone sid slots hs

section Reserve

variable {sid : ℕ} {slots : List (Option ℕ)} {sidFirst sidCurrent sidNext : Option ℕ}

theorem Fine.reserve (h : Fine c false s) (hfile : s.theFile = true)
    (hslots : s.slots = some sid :: slots) (hheld : (sidCurrent.toList ++ sidNext.toList).Perm
      (sid :: (s.sidCurrent.toList ++ s.sidNext.toList)))
    (hfirst : sidFirst = none ↔ sidCurrent = none) :
    Fine c false { s.reserve sid slots with sidFirst, sidCurrent, sidNext } := by
  obtain ⟨chain, hinv⟩ := h.inv
  have hmem := (hinv.nodup_sent hfile).2
  obtain ⟨done, hdone, hstored⟩ := h.disk
  refine ⟨⟨chain, hinv.reserve hheld hfile hslots hfirst⟩, h.cells,
    ⟨done, hdone, fun r hr => ⟨(hstored r hr).disk, ?_⟩⟩, h.replies, .inl hfile⟩
  have hne : r.sidCurrent ≠ sid := fun heq =>
    hinv.owned.not_mem_of_slots hslots (heq ▸ hmem r (hdone ▸ mem_append_left _ hr))
  show (Function.update s.slices sid _ r.sidCurrent).size.toNat = _
  rw [Function.update_of_ne hne]
  exact (hstored r hr).size

theorem Written.sent_nil (h : Written data s) (hfirst : s.sidFirst = none) : s.sent = [] := by
  have hlinks := h.links
  rw [hfirst] at hlinks
  cases hsent : s.sent with
  | nil => rfl
  | cons r rs =>
    rw [hsent] at hlinks
    cases (cons.inj hlinks).1

theorem Growing.reserve (h : Growing c n data s) (hslots : s.slots = some sid :: slots)
    (hheld : (sidCurrent.toList ++ sidNext.toList).Perm
      (sid :: (s.sidCurrent.toList ++ s.sidNext.toList)))
    (hlinks : sidFirst :: s.sent.map (·.header.nextSlot)
      = s.sent.map (fun r => some r.sidCurrent) ++ [sidCurrent]) :
    Growing c n data { s.reserve sid slots with sidFirst, sidCurrent, sidNext } := by
  have hsupply := h.supply
  have hreserved := h.reserved
  have hlength := hheld.length_eq
  rw [hslots, length_cons] at hsupply
  rw [length_append, length_cons, length_append] at hlength
  refine ⟨⟨hlinks, h.content, h.offset_⟩, h.buf, ?_, ?_, h.full, h.entrySize, ?_, h.fits⟩
  · exact fun o ho => h.slots o (hslots ▸ mem_cons_of_mem _ ho)
  · show slots.length + (s.reserved ++ [sid]).length = n
    rw [length_append, length_singleton]
    omega
  · show (s.reserved ++ [sid]).length =
      s.sent.length + sidCurrent.toList.length + sidNext.toList.length
    rw [length_append, length_singleton]
    omega

end Reserve

section Issue

variable {sidFirst sidCurrent : ℕ}

/-- The bytes written so far fill the cells so far. -/
theorem Growing.length_eq (h : Growing c n data s) :
    data.length = s.sent.length * c.room + (s.theBuf.length - sizeofDbCellHeader) := by
  rw [congrArg length h.content, length_append, length_drop, length_flatMap,
    map_congr_left h.full, map_const', sum_replicate]
  rfl

/-- A buffer that is full has the size of a slot, if its bytes are to fit one. -/
theorem Growing.capacity_eq (hc : c.Plain) (h : Growing c n data s)
    (hfull : s.theBuf.length = c.capacity) : c.capacity = c.slotSize := by
  refine h.fits.elim id fun hle => ?_
  have hge := hc.le_capacity
  have hlt := hc.slotSize
  rw [h.length_eq, hfull, Config.room] at hle
  omega

/-- The cell that is made of the buffer. -/
theorem Growing.cellOk (h : Growing c n data s) (hbuf : s.theBuf ≠ [])
    (hok : BufOk c s.theBuf) : CellOk c (s.request c sidFirst sidCurrent) := by
  have hpos := h.buf.resolve_left hbuf
  have hle := (hok.resolve_left hbuf).2
  have hroom : s.theBuf.length - sizeofDbCellHeader ≤ c.room := by
    rcases h.fits with heq | hfits
    · rw [heq] at hle
      exact Nat.sub_le_sub_right hle _
    · rw [h.length_eq] at hfits
      omega
  refine ⟨rfl, ?_, ?_, ?_⟩ <;> simp only [request, length_drop] <;> omega

theorem Fine.issue (h : Fine c false s) (hg : Growing c n data s)
    (hfile : s.theFile = true) (hbuf : s.theBuf ≠ []) (hfirst : s.sidFirst = some sidFirst)
    (hcurrent : s.sidCurrent = some sidCurrent) :
    Fine c s.sidNext.isNone (s.issue (s.request c sidFirst sidCurrent)) := by
  obtain ⟨chain, hinv⟩ := h.inv
  obtain ⟨done, hdone, hstored⟩ := h.disk
  refine ⟨⟨chain, hinv.issue hfile hfirst hcurrent⟩, ?_,
    ⟨done, ?_, fun r hr => { hstored r hr with }⟩, h.replies, .inl hfile⟩
  · exact forall_mem_append.mpr
      ⟨h.cells, forall_mem_singleton.mpr (hg.cellOk hbuf hinv.buf)⟩
  · show s.sent ++ [_] = done ++ (s.inFlight ++ [_])
    rw [hdone, append_assoc]

theorem Written.issue (h : Written data s) (hcurrent : s.sidCurrent = some sidCurrent) :
    Written data (s.issue (s.request c sidFirst sidCurrent)) := by
  refine ⟨?_, ?_, h.offset_⟩
  · show s.sidFirst :: (s.sent ++ [_]).map _ = (s.sent ++ [_]).map _ ++ [s.sidNext]
    rw [map_append, ← cons_append, h.links, map_append, hcurrent]
    rfl
  · show data = (s.sent ++ [_]).flatMap _ ++ ([] : List UInt8).drop _
    refine h.content.trans ?_
    simp [request]

theorem Growing.issue (hc : c.Plain) (h : Growing c n data s)
    (hcurrent : s.sidCurrent = some sidCurrent) (hfull : s.theBuf.length = c.capacity)
    (hnext : s.sidNext ≠ none) : Growing c n data (s.issue (s.request c sidFirst sidCurrent)) := by
  obtain ⟨sid, hsid⟩ := ne_none_iff_exists'.mp hnext
  have hreserved := h.reserved
  rw [hcurrent, hsid] at hreserved
  refine ⟨h.toWritten.issue hcurrent, .inl rfl, h.slots, h.supply,
    forall_mem_append.mpr ⟨h.full, forall_mem_singleton.mpr ?_⟩,
    forall_mem_append.mpr ⟨h.entrySize, forall_mem_singleton.mpr ?_⟩, ?_, h.fits⟩
  · simp only [request, length_drop, Config.room, hfull, h.capacity_eq hc hfull]
  · simp [request, hsid]
  · show s.reserved.length = (s.sent ++ [_]).length + s.sidNext.toList.length + 0
    rw [hreserved, hsid, length_append]
    simp only [toList_some, length_singleton]

end Issue

theorem ensureFirst_fine (h : Fine c false s) (hg : Growing c n data s) (hfile : s.theFile = true)
    (hslots : s.sidFirst = none → s.slots ≠ []) : Gives (ensureFirst c)
      (fun _ s' => Fine c false s' ∧ Growing c n data s' ∧ s'.theFile = true ∧
        s'.theBuf = s.theBuf ∧ s'.sidNext = s.sidNext ∧
        ∃ first current, s'.sidFirst = some first ∧ s'.sidCurrent = some current)
      (fun _ => False) s := by
  obtain ⟨chain, hinv⟩ := h.inv
  have ha := hinv.active hfile
  unfold ensureFirst
  simp only [gives_bind, gives_get, gives_whenever]
  refine ⟨fun hnone => ?_, fun hsome => ?_⟩
  · refine reserveSlotForWriting_gives hinv.owned (fun sid slots hsid => ?_) fun _ hno _ =>
      hg.not_none (hslots hnone) hno
    rw [gives_modify]
    have hcurrent : s.sidCurrent = none := (ha.first rfl).mp hnone
    have hheld : ((some sid).toList ++ s.sidNext.toList).Perm
        (sid :: (s.sidCurrent.toList ++ s.sidNext.toList)) := by rw [hcurrent]; rfl
    refine ⟨h.reserve hfile hsid hheld (by simp), hg.reserve hsid hheld ?_, hfile, rfl, rfl,
      sid, sid, rfl, rfl⟩
    rw [hg.sent_nil hnone]
    rfl
  · obtain ⟨first, hfirst⟩ := ne_none_iff_exists'.mp hsome
    obtain ⟨current, hcurrent⟩ := ne_none_iff_exists'.mp fun hnone =>
      hsome ((ha.first rfl).mpr hnone)
    exact ⟨h, hg, hfile, trivial, trivial, first, current, hfirst, hcurrent⟩

/-- A request was made of the state `s1`, which is `s` but for the first slot. -/
structure Flushed (c : Config) (n : ℕ) (data : List UInt8) (s s' : Swapout) : Prop where
  fine : Fine c s.sidNext.isNone s'
  written : Written data s'
  theBuf : s'.theBuf = []
  sidNext : s'.sidNext = none
  more : s.sidNext ≠ none → s.theBuf.length = c.capacity → Growing c n data s'
  last : s.sidNext = none → s'.sidCurrent = none ∧
    ∃ front r, s'.sent = front ++ [r] ∧ (∀ q ∈ front, q.header.entrySize = 0) ∧
      r.header.entrySize = data.length

/-- **A request is fine**, with a slot for it. -/
theorem writeToDisk_fine (hc : c.Plain) (h : Fine c false s) (hg : Growing c n data s)
    (hfile : s.theFile = true) (hbuf : s.theBuf ≠ []) (hslots : s.sidFirst = none → s.slots ≠ []) :
    Gives (writeToDisk c) (fun _ => Flushed c n data s) (fun _ => False) s := by
  obtain ⟨chain, hinv⟩ := h.inv
  have hlen : sizeofDbCellHeader ≤ s.theBuf.length := (hinv.buf.resolve_left hbuf).1
  unfold writeToDisk
  simp only [gives_bind, gives_get, gives_defined]
  refine ⟨hfile, hlen, (hinv.active hfile).first rfl, (ensureFirst_fine h hg hfile hslots).imp ?_⟩
  rintro _ s1 ⟨h1, hg1, hfile1, hbuf1, hnext1, first, current, hfirst, hcurrent⟩
  simp only [gives_bind, gives_get]
  rw [hfirst, hcurrent]
  have hissued := h1.issue hg1 hfile1 (hbuf1 ▸ hbuf) hfirst hcurrent
  refine (answerNow_fine hc hissued).imp ?_
  rintro _ s' ⟨h', hsame⟩
  rw [hnext1] at h'
  refine ⟨h', (hg1.toWritten.issue hcurrent).same hsame, hsame.theBuf, hsame.sidNext,
    fun hne hfull => ?_, fun hnone => ⟨?_, ?_⟩⟩
  · exact (hg1.issue hc hcurrent (hbuf1 ▸ hfull) (hnext1 ▸ hne)).same hsame
  · rw [hsame.sidCurrent]
    exact hnext1.trans hnone
  · refine ⟨s1.sent, _, hsame.sent, hg1.entrySize, ?_⟩
    simp [request, hnext1, hnone, hg1.offset_]

/-! ## Calls -/

/-- A writer between two calls. -/
structure Writing (c : Config) (n : ℕ) (data : List UInt8) (s : Swapout) : Prop where
  fine : Fine c false s
  growing : Growing c n data s
  theFile : s.theFile = true
  sidNext : s.sidNext = none

/-- More bytes are in the buffer. -/
theorem Writing.withBuf (h : Writing c n data s) (bytes : List UInt8)
    (hlt : sizeofDbCellHeader < buf.length) (hle : buf.length ≤ c.capacity)
    (hfits : c.capacity = c.slotSize ∨ (data ++ bytes).length ≤ c.room)
    (hbuf : buf.drop sizeofDbCellHeader = s.theBuf.drop sizeofDbCellHeader ++ bytes) :
    Writing c n (data ++ bytes) { s with theBuf := buf, offset_ := s.offset_ + bytes.length } := by
  obtain ⟨hfine, hg, hfile, hnext⟩ := h
  obtain ⟨chain, hinv⟩ := hfine.inv
  obtain ⟨done, hdone, hstored⟩ := hfine.disk
  refine ⟨⟨⟨chain, hinv.withBuf (.inr ⟨hlt.le, hle⟩) _⟩, hfine.cells,
    ⟨done, hdone, fun r hr => { hstored r hr with }⟩, hfine.replies, .inl hfile⟩,
    ⟨⟨hg.links, ?_, ?_⟩, .inr hlt, hg.slots, hg.supply, hg.full, hg.entrySize, hg.reserved, hfits⟩,
    hfile, hnext⟩
  · rw [hbuf, ← append_assoc, ← hg.content]
  · rw [hg.offset_, length_append]

section

variable (hc : c.Plain)
include hc

theorem writeToBuffer_fine (h : Writing c n data s) (hne : buf ≠ [])
    (hfits : c.capacity = c.slotSize ∨ (data ++ buf).length ≤ c.room) : Gives (writeToBuffer c buf)
      (fun k s' => Writing c n (data ++ buf.take k) s' ∧ s'.theBuf ≠ [] ∧
        (buf.drop k ≠ [] → s'.theBuf.length = c.capacity) ∧ (s.theBuf = [] → 0 < k))
      (fun _ => False) s := by
  obtain ⟨chain, hinv⟩ := h.fine.inv
  have hcap : sizeofDbCellHeader < c.capacity := hc.slotSize.trans_le hc.le_capacity
  have hpos := length_pos_of_ne_nil hne
  have hgives : ∀ front : List UInt8, sizeofDbCellHeader ≤ front.length →
      front.length ≤ c.capacity → (s.theBuf = [] → front.length = sizeofDbCellHeader) →
      (s.theBuf ≠ [] → sizeofDbCellHeader < front.length) →
      front.drop sizeofDbCellHeader = s.theBuf.drop sizeofDbCellHeader →
      let k := min buf.length (c.capacity - front.length)
      Writing c n (data ++ buf.take k)
          { s with theBuf := front ++ buf.take k, offset_ := s.offset_ + k } ∧
        front ++ buf.take k ≠ [] ∧
        (buf.drop k ≠ [] → (front ++ buf.take k).length = c.capacity) ∧
        (s.theBuf = [] → 0 < k) := by
    intro front hmin hmax hstart hmore hdrop k
    have hk : (buf.take k).length = k := by rw [length_take]; omega
    have hlen : sizeofDbCellHeader < (front ++ buf.take k).length := by
      rw [length_append, hk]
      by_cases hnil : s.theBuf = [] <;> omega
    have hle : (front ++ buf.take k).length ≤ c.capacity := by
      rw [length_append, hk]
      omega
    have hprefix : (data ++ buf.take k).length ≤ (data ++ buf).length := by
      rw [length_append, length_append, length_take]
      omega
    have hwriting := h.withBuf (buf.take k) hlen hle (hfits.imp_right hprefix.trans) (by
      rw [drop_append_of_le_length hmin, hdrop])
    rw [hk] at hwriting
    refine ⟨hwriting, ne_nil_of_length_pos (lt_trans (by decide) hlen), fun hrest => ?_,
      fun hnil => ?_⟩
    · have hlt : k < buf.length := by
        rw [Ne, drop_eq_nil_iff] at hrest
        omega
      rw [length_append, hk]
      omega
    · have := hstart hnil
      omega
  unfold writeToBuffer startBuf
  simp only [gives_bind, gives_get, gives_whenever, gives_must, gives_modify, gives_pure]
  refine ⟨fun hnil => ⟨fun _ => ?_, fun hlt => hlt hcap.le⟩, fun hnil => ?_⟩
  · refine hgives _ ?_ ?_ (fun _ => length_replicate) (absurd hnil) ?_
    · rw [length_replicate]
    · exact hcap.le
    · rw [hnil, drop_nil]
      rfl
  · have hok := hinv.buf.resolve_left hnil
    exact hgives s.theBuf hok.1 hok.2 (fun h => absurd h hnil)
      (fun _ => h.growing.buf.resolve_left hnil) rfl

/-- A full buffer is written. -/
theorem overflow_fine (h : Writing c n data s) (hbuf : s.theBuf ≠ [])
    (hfull : s.theBuf.length = c.capacity) (hroom : data.length < n * c.room) :
    Gives (overflow c) (fun _ s' => Writing c n data s' ∧ s'.theBuf = []) (fun _ => False) s := by
  obtain ⟨hfine, hg, hfile, hnext⟩ := h
  obtain ⟨chain, hinv⟩ := hfine.inv
  have ha := hinv.active hfile
  have hcells : s.sent.length + 1 < n := by
    have hlen := hg.length_eq
    rw [hfull, hg.capacity_eq hc hfull] at hlen
    refine Nat.lt_of_mul_lt_mul_right (a := c.room) ?_
    rw [Nat.succ_mul]
    exact lt_of_le_of_lt hlen.ge hroom
  have hcurrent : s.sidCurrent.toList.length ≤ 1 := by cases s.sidCurrent <;> simp
  have hsupply := hg.supply
  have hreserved := hg.reserved
  rw [hnext] at hreserved
  have hslots : s.slots ≠ [] := fun hnil => by
    rw [hnil] at hsupply
    simp only [toList_none, length_nil] at hsupply hreserved
    omega
  unfold overflow
  simp only [gives_bind, gives_get, gives_must]
  refine ⟨fun _ => ?_, fun hne => hne hnext⟩
  refine reserveSlotForWriting_gives hinv.owned (fun sid slots hsid => ?_) fun _ hno _ =>
    hg.not_none hslots hno
  simp only [gives_bind, gives_modify]
  have hheld := held_next_perm hnext sid
  have hfine' : Fine c false { s.reserve sid slots with sidNext := some sid } :=
    hfine.reserve hfile hsid hheld (ha.first rfl)
  have hg' : Growing c n data { s.reserve sid slots with sidNext := some sid } :=
    hg.reserve hsid hheld hg.links
  have hslots' : s.sidFirst = none → slots ≠ [] := fun hfirst hnil => by
    have hnone : s.sidCurrent = none := (ha.first rfl).mp hfirst
    rw [hnone] at hreserved
    rw [hsid, hnil] at hsupply
    simp only [toList_none, length_cons, length_nil] at hsupply hreserved
    omega
  refine (writeToDisk_fine hc hfine' hg' hfile hbuf hslots').imp ?_
  rintro _ s' hf
  simp only [gives_bind, gives_get, gives_must]
  refine ⟨fun _ => ⟨⟨hf.fine, hf.more (by simp) hfull, ?_, hf.sidNext⟩, hf.theBuf⟩,
    fun hne => hne hf.sidNext⟩
  exact hf.fine.state.resolve_right fun hend => absurd hend.1 (by simp)

theorem writeLoop_fine {fuel : ℕ} (h : Writing c n data s)
    (hroom : c.Room n (data ++ buf).length)
    (hfuel : buf.length + 2 ≤ fuel ∨ s.theBuf = [] ∧ buf.length + 1 ≤ fuel) :
    Gives (writeLoop c fuel buf) (fun _ s' => Writing c n (data ++ buf) s' ∧
      (buf ≠ [] → s'.theBuf ≠ []) ∧ (buf = [] → s' = s)) (fun _ => False) s := by
  induction fuel generalizing buf s data with
  | zero => omega
  | succ fuel ih =>
    rw [writeLoop]
    simp only [gives_bind, gives_get, gives_whenever]
    refine ⟨fun hgo => ?_, fun hstop => ?_⟩
    · have hpos := length_pos_of_ne_nil hgo.1
      refine (writeToBuffer_fine hc h hgo.1 hroom.fits).imp ?_
      rintro k s1 ⟨h1, hbuf1, hfull1, hk⟩
      simp only [gives_bind, gives_whenever]
      refine ⟨fun hmore => ?_, fun hdone => ?_⟩
      · have hlt : (data ++ buf.take k).length < n * c.room := by
          have hdrop := length_pos_of_ne_nil hmore
          have hle := hroom.le
          rw [length_append] at hle ⊢
          rw [length_drop] at hdrop
          rw [length_take]
          omega
        refine (overflow_fine hc h1 hbuf1 (hfull1 hmore) hlt).imp ?_
        rintro _ s2 ⟨h2, hbuf2⟩
        have happend : data ++ buf.take k ++ buf.drop k = data ++ buf := by
          rw [append_assoc, take_append_drop]
        refine (ih h2 (happend ▸ hroom) (.inr ⟨hbuf2, ?_⟩)).imp ?_
        · rw [length_drop]
          rcases hfuel with hfuel | ⟨hnil, hfuel⟩
          · omega
          · have := hk hnil
            omega
        · rintro _ s3 ⟨h3, hbuf3, -⟩
          rw [happend] at h3
          exact ⟨h3, fun _ => hbuf3 hmore, fun hnil => absurd hnil hgo.1⟩
      · have hnil : buf.drop k = [] := not_not.mp hdone
        have htake : buf.take k = buf := by
          have := take_append_drop k buf
          rwa [hnil, append_nil] at this
        rw [htake] at h1
        rw [hnil]
        cases fuel with
        | zero => omega
        | succ fuel =>
          rw [writeLoop]
          simp only [gives_bind, gives_get, gives_whenever]
          exact ⟨fun hgo => absurd rfl hgo.1, fun _ =>
            ⟨h1, fun _ => hbuf1, fun hnil => absurd hnil hgo.1⟩⟩
    · have hnil : buf = [] := not_not.mp fun hne => hstop ⟨hne, h.theFile⟩
      rw [hnil, append_nil]
      exact ⟨h, fun hne => absurd rfl hne, fun _ => trivial⟩

/-- **Writing is fine**, as long as there is room. -/
theorem write_fine (h : Writing c n data s) (hbuf : data ≠ [] → s.theBuf ≠ [])
    (hroom : c.Room n (data ++ buf).length) (hmax : (data ++ buf).length ≤ c.maxObjectSize) :
    Gives (write c buf) (fun ok s' => ok = true ∧ Writing c n (data ++ buf) s' ∧
        (data ++ buf ≠ [] → s'.theBuf ≠ [])) (fun _ => False) s := by
  unfold write
  rw [gives_tryCatch, gives_bind]
  unfold tryWrite
  simp only [gives_bind, gives_get, gives_must]
  refine ⟨fun _ => ?_, fun hlt => absurd ?_ hlt⟩
  · refine (writeLoop_fine hc h hroom (.inl le_rfl)).never ?_
    rintro _ s' ⟨h', hne, heq⟩
    refine (gives_pure _).mpr ⟨rfl, h', fun hdata => ?_⟩
    by_cases hnil : buf = []
    · rw [hnil, append_nil] at hdata
      rw [heq hnil]
      exact hbuf hdata
    · exact hne hnil
  · rw [h.growing.offset_, ← length_append]
    exact hmax

/-- An entry to which all was written. -/
structure Closed (c : Config) (data : List UInt8) (s : Swapout) : Prop extends Written data s where
  fine : Fine c true s
  theBuf : s.theBuf = []
  sidCurrent : s.sidCurrent = none
  entrySize : ∃ front r, s.sent = front ++ [r] ∧ (∀ q ∈ front, q.header.entrySize = 0) ∧
    r.header.entrySize = data.length

/-- **Closing is fine.** -/
theorem close_fine (h : Writing c n data s) (hbuf : s.theBuf ≠ [])
    (hroom : data.length ≤ n * c.room) :
    Gives (close c .wroteAll) (fun _ => Closed c data) (fun _ => False) s := by
  obtain ⟨hfine, hg, hfile, hnext⟩ := h
  have hslots : s.sidFirst = none → s.slots ≠ [] := fun hfirst hnil => by
    obtain ⟨chain, hinv⟩ := hfine.inv
    have hcurrent : s.sidCurrent = none := ((hinv.active hfile).first rfl).mp hfirst
    have hsupply := hg.supply
    have hlen := hg.length_eq
    have hpos := hg.buf.resolve_left hbuf
    rw [hnil, hg.reserved, hg.sent_nil hfirst, hcurrent, hnext] at hsupply
    rw [← hsupply] at hroom
    simp only [toList_none, length_nil, zero_add, zero_mul] at hroom
    omega
  unfold close flush
  simp only [gives_bind, gives_get, gives_whenever, gives_defined, gives_tryCatch]
  refine ⟨fun _ => ⟨hbuf, ?_⟩, absurd hfile⟩
  refine (writeToDisk_fine hc hfine hg hfile hbuf hslots).never ?_
  rintro _ s' hf
  obtain ⟨hcurrent, hentry⟩ := hf.last hnext
  have hover := hf.fine
  rw [hnext] at hover
  exact ⟨hf.written, hover, hf.theBuf, hcurrent, hentry⟩

end

/-! ## Runs -/

/-- What happens until the entry is closed. -/
inductive Action
  | write (buf : List UInt8)
  /-- the disk answers the first request that it has not answered -/
  | answer

namespace Action

/-- What is written. -/
def bytes : Action → List UInt8
  | write buf => buf
  | answer => []

/-- What happens. An entry is given up when writing to it fails. -/
def perform (c : Config) : Action → Io Unit
  | write buf => do
    let ok ← Rock.write c buf
    must (ok = true)
  | answer => completed c 0 true

end Action

/-- These actions, one after the other. -/
def performAll (c : Config) : List Action → Io Unit
  | [] => pure ()
  | action :: actions => do
    action.perform c
    performAll c actions

/-- An entry is written and closed, and the disk gives so many more answers. -/
def store (c : Config) (actions : List Action) (answers : ℕ) : Io Unit := do
  performAll c actions
  close c .wroteAll
  deliver c (List.replicate answers (0, true))

theorem performAll_fine (hc : c.Plain) {actions : List Action} (h : Writing c n data s)
    (hbuf : data ≠ [] → s.theBuf ≠ [])
    (hroom : c.Room n (data ++ actions.flatMap (·.bytes)).length)
    (hmax : (data ++ actions.flatMap (·.bytes)).length ≤ c.maxObjectSize) :
    Gives (performAll c actions) (fun _ s' => Writing c n (data ++ actions.flatMap (·.bytes)) s' ∧
      (data ++ actions.flatMap (·.bytes) ≠ [] → s'.theBuf ≠ [])) (fun _ => False) s := by
  induction actions generalizing s data with
  | nil =>
    rw [flatMap_nil, append_nil]
    exact (gives_pure _).mpr ⟨h, hbuf⟩
  | cons action actions ih =>
    rw [performAll, gives_bind]
    rw [flatMap_cons, ← append_assoc] at hroom hmax ⊢
    have hle : (data ++ action.bytes).length ≤
        (data ++ action.bytes ++ actions.flatMap (·.bytes)).length :=
      (prefix_append _ _).length_le
    refine Gives.imp (Q := fun _ s1 => Writing c n (data ++ action.bytes) s1 ∧
      (data ++ action.bytes ≠ [] → s1.theBuf ≠ [])) ?_ fun _ s1 h1 => ih h1.1 h1.2 hroom hmax
    cases action with
    | write buf =>
      show Gives (do let ok ← write c buf; must (ok = true)) _ _ s
      rw [gives_bind]
      refine (write_fine hc h hbuf (hroom.mono hle) (hle.trans hmax)).imp ?_
      rintro ok s1 ⟨hok, h1⟩
      exact (gives_must _).mpr ⟨fun _ => h1, fun hne => hne hok⟩
    | answer =>
      rw [show Action.bytes .answer = [] from rfl, append_nil]
      refine (completed_fine hc h.fine).imp ?_
      rintro _ s1 ⟨h1, hsame, -⟩
      refine ⟨⟨h1, h.growing.same hsame, ?_, hsame.sidNext.trans h.sidNext⟩, fun hne => ?_⟩
      · exact h1.state.resolve_right fun hend => absurd hend.1 nofun
      · rw [hsame.theBuf]
        exact hbuf hne

/-- **A complete entry** with the content `data`. -/
structure Complete (c : Config) (data : List UInt8) (s : Swapout) : Prop where
  lock : s.lock = .reading
  swap_file_sz : s.swap_file_sz = data.length
  /-- the cells are not empty, and fit -/
  payloadSize : ∀ r ∈ s.sent, 0 < r.header.payloadSize ∧
    r.header.payloadSize ≤ c.slotSize - sizeofDbCellHeader
  /-- the links on the disk follow the chain in the map, and end -/
  links : s.start :: s.sent.map (·.header.nextSlot)
    = s.sent.map (fun r => some r.sidCurrent) ++ [none]
  walk : Walk s.next none s.start (s.sent.map (·.sidCurrent))
  /-- the last cell, and no other, has the size of the entry -/
  entrySize : ∃ front r, s.sent = front ++ [r] ∧ (∀ q ∈ front, q.header.entrySize = 0) ∧
    r.header.entrySize = data.length

/-- The cells have the content. -/
structure Contains (c : Config) (data : List UInt8) (s : Swapout) : Prop where
  content : data = s.sent.flatMap (·.payload)
  cells : ∀ r ∈ s.sent, CellOk c r
  stored : ∀ r ∈ s.sent, Stored s r
  walk : Walk s.next none s.start (s.sent.map (·.sidCurrent))
  length_le : s.sent.length ≤ c.sliceLimit

theorem length_le_flatMap (h : ∀ r ∈ rs, 0 < r.payload.length) :
    rs.length ≤ (rs.flatMap (·.payload)).length := by
  rw [length_flatMap]
  simpa using length_le_sum_of_one_le (rs.map (·.payload.length)) (forall_mem_map.mpr h)

/-- When all was answered, the entry is complete. -/
theorem Closed.complete (h : Closed c data s) (hfl : s.inFlight = []) :
    Complete c data s ∧ Contains c data s := by
  obtain ⟨chain, hinv⟩ := h.fine.inv
  obtain ⟨done, hdone, hstored⟩ := h.fine.disk
  rw [hfl, append_nil] at hdone
  have hfile : s.theFile = false := Bool.eq_false_iff.mpr fun hfile => by
    have hrow := (hinv.active hfile).row
    rw [hfl] at hrow
    exact absurd hrow.2.symm nofun
  obtain ⟨-, hlock, hsize⟩ := h.fine.state.resolve_left (ne_true_of_eq_false hfile)
  have hchain := ((hinv.finished hfile).complete hlock).2.2
  have hwalk : Walk s.next none s.start (s.sent.map (·.sidCurrent)) := hchain ▸ hinv.owned.walk
  have hcontent := h.content
  rw [h.theBuf, drop_nil, append_nil] at hcontent
  have hlength : s.sent.length ≤ c.sliceLimit := by
    have hle := hinv.owned.walk_length
    rwa [← hchain, length_map] at hle
  refine ⟨⟨hlock, hsize.trans h.offset_, fun r hr => ?_, ?_, hwalk, h.entrySize⟩,
    ⟨hcontent, h.fine.cells, fun r hr => hstored r (hdone ▸ hr), hwalk, hlength⟩⟩
  · have hcell := h.fine.cells r hr
    rw [hcell.payloadSize]
    exact ⟨hcell.pos, hcell.le⟩
  · have hlinks := h.links
    rw [h.sidCurrent] at hlinks
    obtain ⟨front, r, hsent, -⟩ := h.entrySize
    have hfirst : s.sidFirst = s.start := by
      rw [hwalk.eq_head?]
      cases hlist : s.sent with
      | nil => rw [hlist] at hsent; simp at hsent
      | cons q rs =>
        rw [hlist] at hlinks
        exact (cons.inj hlinks).1
    rwa [hfirst] at hlinks

theorem Closed.same (h : Closed c data s) (hfine : Fine c true s') (hs : Same s s') :
    Closed c data s' := by
  refine ⟨h.toWritten.same hs, hfine, hs.theBuf.trans h.theBuf,
    hs.sidCurrent.trans h.sidCurrent, ?_⟩
  rw [hs.sent]
  exact h.entrySize

section

variable {replies : List (List (ℕ × Bool))} {slices : ℕ → StoreMapSlice} {disk : ℕ → UInt8}
  (hslots : ∀ o ∈ slots, o ≠ none) (hnodup : slots.reduceOption.Nodup)
  (hvalid : ∀ sid ∈ slots.reduceOption, sid < c.sliceLimit)
  (hreplies : ∀ answers ∈ replies, InOrder answers)
include hslots hnodup hvalid hreplies

theorem writing_new : Writing c slots.length [] (.new slices slots replies disk) := by
  refine ⟨⟨(between_new hnodup hvalid).1, nofun, ⟨[], rfl, nofun⟩, hreplies, .inl rfl⟩,
    ⟨⟨rfl, rfl, rfl⟩, .inl rfl, hslots, rfl, nofun, nofun, rfl, .inr (Nat.zero_le _)⟩, rfl, rfl⟩

/-- **An entry is complete when it was written and closed**, and all was answered. -/
theorem store_complete (hc : c.Plain) {actions : List Action} {answers : ℕ}
    (hne : actions.flatMap (·.bytes) ≠ [])
    (hroom : c.Room slots.length (actions.flatMap (·.bytes)).length)
    (hmax : (actions.flatMap (·.bytes)).length ≤ c.maxObjectSize)
    (hanswers : (actions.flatMap (·.bytes)).length ≤ answers) : Gives (store c actions answers)
      (fun _ s => Complete c (actions.flatMap (·.bytes)) s ∧
      Contains c (actions.flatMap (·.bytes)) s)
      (fun _ => False) (.new slices slots replies disk) := by
  unfold store
  simp only [gives_bind]
  have hstart : Writing c slots.length [] (.new slices slots replies disk) :=
    writing_new hslots hnodup hvalid hreplies
  refine (performAll_fine hc hstart (absurd rfl) hroom hmax).imp ?_
  rintro _ s1 ⟨h1, hbuf1⟩
  rw [gives_bind]
  refine (close_fine hc h1 (hbuf1 hne) hroom.le).imp ?_
  rintro _ s2 h2
  have horder : InOrder (replicate answers (0, true)) := fun a ha =>
    eq_of_mem_replicate ha
  refine (deliver_fine hc horder h2.fine).imp ?_
  rintro _ s3 ⟨h3, hsame, hfl⟩
  refine (h2.same h3 hsame).complete ?_
  obtain ⟨done, hdone, -⟩ := h2.fine.disk
  have hsent := length_le_flatMap fun r hr => (h2.fine.cells r hr).pos
  have hcontent := h2.content
  rw [h2.theBuf, drop_nil, append_nil] at hcontent
  rw [← hcontent, nil_append, hdone, length_append] at hsent
  rw [hfl, length_replicate, drop_eq_nil_iff]
  omega

end

/-! ## Reading -/

/-- The reader is at the first of the cells `rs`, behind the cells `front`. -/
structure At (s : Swapout) (front rs : List WriteRequest) (rd : Reader) : Prop where
  sent : s.sent = front ++ rs
  sidCurrent : rd.sidCurrent = rs.head?.map (·.sidCurrent)
  objOffset : rd.objOffset = (front.flatMap (·.payload)).length

section

variable (h : Contains c data s)
include h

theorem Contains.next_eq {front : List WriteRequest} (hsent : s.sent = front ++ r :: rs) :
    s.next r.sidCurrent = rs.head?.map (·.sidCurrent) := by
  have hwalk := h.walk
  rw [hsent, map_append, map_cons] at hwalk
  rw [hwalk.next_eq, head?_map]

/-- **The loop finds the cell** with the offset, or the end. -/
theorem seek_spec {coreOff fuel : ℕ} {front : List WriteRequest} {rd : Reader}
    (hat : At s front rs rd) (hle : rd.objOffset ≤ coreOff) (hfuel : rs.length < fuel) :
    ∃ rd' front' rs', seek s coreOff fuel rd = some rd' ∧ At s front' rs' rd' ∧
      rd'.objOffset ≤ coreOff ∧ ∀ r ∈ rs'.head?, coreOff < rd'.objOffset + r.payload.length := by
  induction fuel generalizing rs front rd with
  | zero => exact absurd hfuel (not_lt_zero _)
  | succ fuel ih =>
    rw [seek, hat.sidCurrent]
    cases rs with
    | nil => exact ⟨rd, front, [], rfl, hat, hle, nofun⟩
    | cons r rs =>
      have hr : r ∈ s.sent := hat.sent ▸ mem_append_right _ mem_cons_self
      have hsize := (h.stored r hr).size
      show ∃ rd' front' rs', (if rd.objOffset + (s.slices r.sidCurrent).size.toNat ≤ coreOff then
        seek s coreOff fuel ⟨s.next r.sidCurrent, _⟩ else some rd) = some rd' ∧ _
      rw [hsize]
      by_cases hend : rd.objOffset + r.payload.length ≤ coreOff
      · rw [if_pos hend]
        have hnext : At s (front ++ [r]) rs
            ⟨s.next r.sidCurrent, rd.objOffset + r.payload.length⟩ := by
          refine ⟨?_, h.next_eq hat.sent, ?_⟩
          · rw [hat.sent, append_assoc]
            rfl
          · rw [hat.objOffset, flatMap_append, length_append, flatMap_singleton]
        exact ih hnext hend (lt_of_succ_lt_succ hfuel)
      · rw [if_neg hend]
        refine ⟨rd, front, r :: rs, rfl, hat, hle, fun q hq => ?_⟩
        obtain rfl : r = q := some.inj hq
        exact Nat.lt_of_not_le hend

/-- The result of reading `len` bytes from `offset` on: the bytes that are there, or
the first of them, but none only if there are none. -/
structure Fits (data : List UInt8) (len offset : ℕ) (bytes : List UInt8) : Prop where
  exact : bytes <+: (data.drop offset).take len
  progress : offset < data.length → 0 < len → bytes ≠ []
  beyond : data.length ≤ offset → bytes = []

/-- What is read of a cell. -/
theorem window_cell (hr : r ∈ s.sent) (d len : ℕ) (hle : d + len ≤ r.payload.length) :
    window s.disk (c.diskOffset r.sidCurrent + sizeofDbCellHeader + d) len
      = (r.payload.drop d).take len := by
  have hdisk := (h.stored r hr).disk
  have hlen := len_eq r
  rw [(h.cells r hr).offset] at hdisk
  have hbuf : r.buf.drop (sizeofDbCellHeader + d) = r.payload.drop d := by
    rw [WriteRequest.buf, ← drop_drop, drop_left' (length_bytes r.header)]
  rw [← hbuf, ← hdisk, drop_window _ _ _ _ (by omega), take_window _ _ _ _ (by omega),
    add_assoc]

/-- A reader that has just begun, or is at some cell. -/
def ReaderOk (s : Swapout) (rd : Reader) : Prop :=
  rd.sidCurrent = none ∨ ∃ front rs, At s front rs rd

/-- **A read gives what was written there.** -/
theorem read_spec {rd : Reader} (hrd : ReaderOk s rd) (len coreOff : ℕ) :
    ∃ rd' bytes, read c s len coreOff rd = some (rd', bytes) ∧ ReaderOk s rd' ∧
      Fits data len coreOff bytes := by
  obtain ⟨front, rs, rd1, hrd1, hat, hle⟩ : ∃ front rs rd1,
      (if rd.sidCurrent = none ∨ coreOff < rd.objOffset then ⟨s.start, 0⟩ else rd) = rd1 ∧
        At s front rs rd1 ∧ rd1.objOffset ≤ coreOff := by
    by_cases hback : rd.sidCurrent = none ∨ coreOff < rd.objOffset
    · refine ⟨[], s.sent, _, if_pos hback, ⟨rfl, ?_, rfl⟩, zero_le _⟩
      rw [← head?_map]
      exact h.walk.eq_head?
    · obtain ⟨front, rs, hat⟩ := hrd.resolve_left fun hnone => hback (.inl hnone)
      exact ⟨front, rs, rd, if_neg hback, hat, Nat.le_of_not_lt fun hlt => hback (.inr hlt)⟩
  have hfuel : rs.length < c.sliceLimit + 1 := by
    have hlength := h.length_le
    rw [hat.sent, length_append] at hlength
    omega
  obtain ⟨rd2, front2, rs2, hseek, hat2, hle2, hhead⟩ := seek_spec h hat hle hfuel
  have hcontent := h.content
  rw [hat2.sent, flatMap_append] at hcontent
  unfold read
  simp only [hrd1, hseek]
  cases rs2 with
  | nil =>
    have hnone : rd2.sidCurrent = none := hat2.sidCurrent
    refine ⟨rd2, [], ?_, .inl hnone, nil_prefix, fun hlt => ?_, fun _ => rfl⟩
    · simp only [map_some, hnone]
    · rw [hcontent, flatMap_nil, append_nil, ← hat2.objOffset] at hlt
      omega
  | cons r rs2 =>
    have hsome : rd2.sidCurrent = some r.sidCurrent := hat2.sidCurrent
    have hr : r ∈ s.sent := hat2.sent ▸ mem_append_right _ mem_cons_self
    have hlt := hhead r rfl
    have hsize := (h.stored r hr).size
    obtain ⟨d, rfl⟩ := Nat.exists_eq_add_of_le hle2
    have hwindow := window_cell h hr d (min len (r.payload.length - d)) (by omega)
    refine ⟨rd2, (r.payload.drop d).take (min len (r.payload.length - d)), ?_,
      .inr ⟨front2, r :: rs2, hat2⟩, ?_, fun _ hpos hnil => ?_, fun hge => ?_⟩
    · simp only [map_some, hsome, hsize]
      rw [show rd2.objOffset + r.payload.length - (rd2.objOffset + d)
        = r.payload.length - d by omega,
        show c.diskOffset r.sidCurrent + sizeofDbCellHeader + (rd2.objOffset + d) - rd2.objOffset
          = c.diskOffset r.sidCurrent + sizeofDbCellHeader + d by omega, hwindow]
    · have hdrop : data.drop (rd2.objOffset + d) = r.payload.drop d ++ rs2.flatMap (·.payload) := by
        rw [hcontent, hat2.objOffset, ← drop_drop, drop_left' rfl, flatMap_cons,
          drop_append_of_le_length (by omega)]
      have htake : (r.payload.drop d).take (min len (r.payload.length - d)) =
          (r.payload.drop d ++ rs2.flatMap (·.payload)).take (min len (r.payload.length - d)) :=
        (take_append_of_le_length (by rw [length_drop]; omega)).symm
      rw [hdrop, htake]
      exact take_prefix_take_left (min_le_left _ _)
    · have hzero := congrArg length hnil
      rw [length_take, length_drop, length_nil] at hzero
      omega
    · rw [hcontent, length_append, flatMap_cons, length_append, ← hat2.objOffset] at hge
      omega

/-- Reads, one after the other: so many bytes from such an offset on. -/
def readAll (c : Config) (s : Swapout) : List (ℕ × ℕ) → Reader → Option (List (List UInt8))
  | [], _ => some []
  | (len, offset) :: requests, rd => do
    let (rd, bytes) ← read c s len offset rd
    let results ← readAll c s requests rd
    pure (bytes :: results)

theorem readAll_spec (requests : List (ℕ × ℕ)) {rd : Reader} (hrd : ReaderOk s rd) :
    ∃ results, readAll c s requests rd = some results ∧
      List.Forall₂ (fun request bytes => Fits data request.1 request.2 bytes) requests results := by
  induction requests generalizing rd with
  | nil => exact ⟨[], rfl, .nil⟩
  | cons request requests ih =>
    obtain ⟨rd', bytes, hread, hrd', hfits⟩ := read_spec h hrd request.1 request.2
    obtain ⟨results, hresults, hall⟩ := ih hrd'
    refine ⟨bytes :: results, ?_, .cons hfits hall⟩
    rw [readAll, hread]
    show (do let results ← readAll c s requests rd'; pure (bytes :: results)) = _
    rw [hresults]
    rfl

end

/-- **What was written is what is read.** However the bytes of an entry are passed to
`write`, and whenever the disk answers: if there is room, and the answers are in
order and without an error, then the entry is complete with cells as they should
be, and all reads give the bytes that were written. -/
theorem read_of_store (hc : c.Plain) {actions : List Action} {answers : ℕ}
    {slices : ℕ → StoreMapSlice} {slots : List (Option ℕ)} {replies : List (List (ℕ × Bool))}
    {disk : ℕ → UInt8} (hslots : ∀ o ∈ slots, o ≠ none) (hnodup : slots.reduceOption.Nodup)
    (hvalid : ∀ sid ∈ slots.reduceOption, sid < c.sliceLimit)
    (hreplies : ∀ answers ∈ replies, InOrder answers)
    (hne : actions.flatMap (·.bytes) ≠ [])
    (hroom : c.Room slots.length (actions.flatMap (·.bytes)).length)
    (hmax : (actions.flatMap (·.bytes)).length ≤ c.maxObjectSize)
    (hanswers : (actions.flatMap (·.bytes)).length ≤ answers) :
    ∃ s, (store c actions answers).run (.new slices slots replies disk) = some (.ok (), s) ∧
      Complete c (actions.flatMap (·.bytes)) s ∧
      ∀ requests, ∃ results, readAll c s requests {} = some results ∧
        List.Forall₂ (fun request bytes =>
          Fits (actions.flatMap (·.bytes)) request.1 request.2 bytes) requests results := by
  have hstore : Gives (store c actions answers) _ _ (.new slices slots replies disk) :=
    store_complete hslots hnodup hvalid hreplies hc hne hroom hmax hanswers
  obtain ⟨r, s, hrun, hr⟩ := hstore
  cases r with
  | error _ => exact hr.elim
  | ok _ => exact ⟨s, hrun, hr.1, fun requests => readAll_spec hr.2 requests (.inl rfl)⟩

/-- Slots of 48 bytes, which the buffers exceed. -/
def oddConfig : Config := ⟨48, 1000, 4, ⟨1, 0⟩, 1⟩

/-- Thirty bytes in slots of 64 bytes, and eight in a slot of 48. -/
theorem read_of_store_thirty :
    (∃ s, (store (smallConfig ⟨1, 0⟩) [.write (List.replicate 24 7), .answer,
        .write (List.replicate 6 8)] 30).run smallSwapout = some (.ok (), s) ∧
      Complete (smallConfig ⟨1, 0⟩) (List.replicate 24 7 ++ List.replicate 6 8) s ∧
      ∀ requests, ∃ results, readAll (smallConfig ⟨1, 0⟩) s requests {} = some results ∧
        List.Forall₂ (fun request bytes =>
          Fits (List.replicate 24 7 ++ List.replicate 6 8) request.1 request.2 bytes)
          requests results) ∧
    ∃ s, (store oddConfig [.write (List.replicate 8 7)] 8).run smallSwapout = some (.ok (), s) ∧
      Complete oddConfig (List.replicate 8 7) s := by
  refine ⟨read_of_store ⟨by decide, by decide, by decide⟩ (by decide) (by decide) (by decide) nofun
    (by decide) ⟨by decide, .inl (by decide)⟩ (by decide) (by decide), ?_⟩
  have hodd : ∃ s, (store oddConfig [.write (List.replicate 8 7)] 8).run smallSwapout =
      some (.ok (), s) ∧ Complete oddConfig (List.replicate 8 7) s ∧ _ :=
    read_of_store ⟨by decide, by decide, by decide⟩ (by decide) (by decide) (by decide) nofun
      (by decide) ⟨by decide, .inr (by decide)⟩ (by decide) (by decide)
  obtain ⟨s, hrun, hcomplete, -⟩ := hodd
  exact ⟨s, hrun, hcomplete⟩

/-- Thirty bytes in slots of 48 bytes: the first cell has more than eight, and the
second cell is written over its end. -/
theorem not_read_of_store_of_odd :
    (((store oddConfig [.write (List.replicate 30 7)] 30).run smallSwapout).map fun x =>
        (x.2.lock, x.2.sent.map (·.header.payloadSize),
          (readAll oddConfig x.2 [(30, 0)] {}).map (·.map (·.take 9)))) =
      some (.reading, [24, 6], some [[7, 7, 7, 7, 7, 7, 7, 7, 1]]) := by
  decide +kernel

end Rock
