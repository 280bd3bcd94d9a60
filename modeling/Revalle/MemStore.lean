import Revalle.Data.Window

/-!
# Updating the headers of an entry in shared memory

An entry of the shared memory cache is a chain of slices, each with a page of
which the first bytes are in use. An update of its headers writes them, and
what the slice with the end of the stale headers has behind them, to new
slices, and lets these be followed by the rest of the stale chain. So it has
to know how many bytes of that slice are headers. `updateHeadersOrThrow` takes
the remainder of the size of the headers by the page size, which is right if
all slices before are full and the headers do not fill the slice.

A chain is the list of its slices. The pages for new ones are in `free`, with
whatever they hold.
-/

namespace MemStore

open Memory List

/-- `Ipc::Mem::PageSize`. -/
def pageSize : ℕ := 32 * 1024

theorem pageSize_pos : 0 < pageSize := by decide

/-- A slice, and its page. -/
structure Slice where
  size : ℕ
  page : ℕ → UInt8

/-- What is read from a chain. -/
def content (chain : List Slice) : List UInt8 := chain.flatMap fun s => window s.page 0 s.size

/-- `ShmWriter`, with the last slice first. -/
structure ShmWriter where
  slices : List Slice
  totalWritten : ℕ
  /-- The pages that can be reserved. -/
  free : List (ℕ → UInt8)

namespace ShmWriter

/-- A slice that is not full, and those before it. -/
def nextAppendableSlice (w : ShmWriter) : Option (Slice × List Slice × List (ℕ → UInt8)) :=
  match w.slices.head?.filter (·.size < pageSize), w.free with
  | some slice, free => some (slice, w.slices.tail, free)
  | none, page :: free => some (⟨0, page⟩, w.slices, free)
  -- ran out of slots
  | none, [] => none

/-- `append`, with the loop of `copyToShm` and `copyToShmSlice`. -/
def append (w : ShmWriter) (buf : List UInt8) : Option ShmWriter :=
  if buf = [] then some w
  else do
    let (slice, slices, free) ← w.nextAppendableSlice
    let sliceOffset := w.totalWritten % pageSize
    let copySize := min buf.length (pageSize - sliceOffset)
    append
      ⟨⟨slice.size + copySize, write slice.page sliceOffset (buf.take copySize)⟩ :: slices,
        w.totalWritten + copySize, free⟩
      (buf.drop copySize)
termination_by buf.length
decreasing_by
  have := length_pos_iff.mpr ‹¬buf = []›
  have := Nat.mod_lt w.totalWritten pageSize_pos
  rw [length_drop]
  omega

end ShmWriter

/-- `sliceContaining`: the slice, and those behind it. -/
def sliceContaining (bytesNeeded : ℕ) : ℕ → List Slice → Option (Slice × List Slice)
  | _, [] => none
  | bytesSeen, slice :: chain =>
    if bytesSeen + slice.size ≥ bytesNeeded then some (slice, chain)
    else sliceContaining bytesNeeded (bytesSeen + slice.size) chain

/-- **Write fresh headers**: the fresh chain and its `swap_file_sz`. Before the call,
`openForUpdating` has set that of the fresh anchor to what the `StoreEntry` has. -/
def updateHeadersOrThrow (stale : List Slice) (swapFileSz entrySwapFileSz staleHdrSz : ℕ)
    (freshHeaders : List UInt8) (free : List (ℕ → UInt8)) : Option (List Slice × ℕ) := do
  guard (swapFileSz = entrySwapFileSz)
  guard (staleHdrSz > 0)
  let (slice, suffix) ← sliceContaining staleHdrSz 0 stale
  guard (swapFileSz ≥ staleHdrSz)
  let writer ← ShmWriter.append ⟨[], 0, free⟩ freshHeaders
  let freshHdrSz := writer.totalWritten
  -- copy same-slice payload remaining after the stored headers
  let headersInLastSlice := staleHdrSz % pageSize
  guard (headersInLastSlice > 0)
  guard (slice.size ≥ headersInLastSlice)
  let writer ← writer.append
    (window slice.page headersInLastSlice (slice.size - headersInLastSlice))
  -- closeForUpdating
  guard (writer.slices ≠ [])
  return (writer.slices.reverse ++ suffix, entrySwapFileSz - staleHdrSz + freshHdrSz)

/-! ## What is written -/

theorem length_content (chain : List Slice) :
    (content chain).length = (chain.map Slice.size).sum := by
  simp [content, length_flatMap]

theorem content_append (chain chain' : List Slice) :
    content (chain ++ chain') = content chain ++ content chain' := flatMap_append

theorem content_cons (s : Slice) (chain : List Slice) :
    content (s :: chain) = window s.page 0 s.size ++ content chain := flatMap_cons

namespace ShmWriter

variable {N : ℕ} {w : ShmWriter} {bytes : List UInt8}

/-- **A writer with `N` slots has written the given bytes**, to slices of which
all but the last one are full. -/
structure Wrote (N : ℕ) (w : ShmWriter) (bytes : List UInt8) : Prop where
  bytes_eq : content w.slices.reverse = bytes
  totalWritten : w.totalWritten = bytes.length
  slots : w.slices.length + w.free.length = N
  last : ∀ s ∈ w.slices.head?, s.size ≤ pageSize ∧
    bytes.length + pageSize = w.slices.length * pageSize + s.size

theorem Wrote.nextAppendableSlice (h : Wrote N w bytes) (hroom : bytes.length < N * pageSize) :
    ∃ s slices free, w.nextAppendableSlice = some (s, slices, free) ∧ s.size < pageSize ∧
      bytes.length = slices.length * pageSize + s.size ∧ slices.length + 1 + free.length = N ∧
      content slices.reverse ++ window s.page 0 s.size = bytes := by
  obtain ⟨slices, total, free⟩ := w
  obtain ⟨hcontent, -, hslots, hlast⟩ := h
  simp only at hcontent hslots hlast
  by_cases hfull : bytes.length = slices.length * pageSize
  · have hnone : slices.head?.filter (·.size < pageSize) = none := by
      rw [Option.filter_eq_none_iff]
      intro s hs
      have := hlast s hs
      rw [decide_eq_true_iff]
      omega
    cases free with
    | nil =>
      rw [hfull, ← hslots] at hroom
      exact absurd hroom (lt_irrefl _)
    | cons page rest =>
      rw [length_cons] at hslots
      refine ⟨⟨0, page⟩, slices, rest, ?_, pageSize_pos, hfull.trans (Nat.add_zero _).symm,
        by omega, ?_⟩
      · simp only [ShmWriter.nextAppendableSlice, hnone]
      · rw [window_zero, append_nil, hcontent]
  · cases slices with
    | nil => exact absurd (by rw [← hcontent]; exact (Nat.zero_mul _).symm) hfull
    | cons s slices =>
      obtain ⟨hle, hlen⟩ := hlast s rfl
      rw [length_cons] at *
      rw [Nat.add_one_mul] at *
      refine ⟨s, slices, free, ?_, by omega, by omega, hslots, ?_⟩
      · have hsome : (s :: slices).head?.filter (·.size < pageSize) = some s :=
          Option.filter_some_pos (decide_eq_true (by omega))
        simp only [ShmWriter.nextAppendableSlice, hsome, tail_cons]
      · rw [← hcontent, reverse_cons, content_append, content_cons]
        simp [content]

/-- **What is appended is written behind what has been written.** -/
theorem Wrote.append (h : Wrote N w bytes) (buf : List UInt8)
    (hroom : bytes.length + buf.length ≤ N * pageSize) :
    ∃ w', w.append buf = some w' ∧ Wrote N w' (bytes ++ buf) := by
  fun_induction ShmWriter.append w buf generalizing bytes with
  | case1 w => exact ⟨w, rfl, by rwa [append_nil]⟩
  | case2 w buf hbuf ih =>
    have hpos := length_pos_iff.mpr hbuf
    obtain ⟨s, slices, free, hnext, hlt, hlen, hslots, hcontent⟩ :=
      h.nextAppendableSlice (by omega)
    have hoff : w.totalWritten % pageSize = s.size := by
      rw [h.totalWritten, hlen, Nat.mul_add_mod_self_right, Nat.mod_eq_of_lt hlt]
    rw [hnext, Option.bind_eq_bind, Option.bind_some]
    simp only [hoff] at ih ⊢
    set copySize := min buf.length (pageSize - s.size) with hcopySize
    have hwindow := window_write_prefix s.page 0 s.size (buf.take copySize) []
    have htake : (buf.take copySize).length = copySize := by
      rw [length_take]
      omega
    rw [append_nil, Nat.zero_add, htake] at hwindow
    have hcopied : Wrote N ⟨⟨s.size + copySize, write s.page s.size (buf.take copySize)⟩ :: slices,
        w.totalWritten + copySize, free⟩ (bytes ++ buf.take copySize) := by
      refine ⟨?_, ?_, hslots, ?_⟩
      · rw [reverse_cons, content_append, content_cons, hwindow, ← append_assoc, ← append_assoc,
          hcontent]
        exact append_nil _
      · rw [h.totalWritten, length_append, htake]
      · rintro _ ⟨⟩
        simp only [length_append, htake, length_cons, Nat.add_one_mul]
        omega
    obtain ⟨w', happend, hw'⟩ := ih s slices free hcopied (by
      rw [length_append, htake, length_drop]
      omega)
    rw [append_assoc, take_append_drop] at hw'
    exact ⟨w', happend, hw'⟩

end ShmWriter

/-! ## What is kept -/

/-- The size of the slices before the one with the given byte. -/
def sizeBefore (bytesNeeded : ℕ) : List Slice → ℕ
  | [] => 0
  | slice :: chain =>
    if slice.size ≥ bytesNeeded then 0
    else slice.size + sizeBefore (bytesNeeded - slice.size) chain

variable {swapFileSz entrySwapFileSz hdr : ℕ} {fresh : List UInt8} {free : List (ℕ → UInt8)}
  {chain suffix : List Slice} {slice : Slice}

theorem sliceContaining_eq (hdr : ℕ) (hpos : 0 < hdr) (hle : hdr ≤ (content chain).length)
    (seen : ℕ) :
    ∃ before slice suffix, chain = before ++ slice :: suffix ∧
      sliceContaining (seen + hdr) seen chain = some (slice, suffix) ∧
      (content before).length = sizeBefore hdr chain ∧ sizeBefore hdr chain < hdr ∧
      hdr ≤ sizeBefore hdr chain + slice.size := by
  induction chain generalizing hdr seen with
  | nil => exact absurd hle (Nat.not_le.mpr hpos)
  | cons s chain ih =>
    rw [sizeBefore, sliceContaining]
    by_cases hs : s.size ≥ hdr
    · rw [if_pos hs, if_pos (by omega)]
      exact ⟨[], s, chain, rfl, rfl, rfl, hpos, by omega⟩
    · rw [content_cons, length_append, length_window] at hle
      obtain ⟨before, slice, suffix, rfl, hfound, hbefore, hlt, hle'⟩ :=
        ih (hdr - s.size) (by omega) (by omega) (seen + s.size)
      rw [if_neg hs, if_neg (by omega)]
      rw [Nat.add_assoc, Nat.add_sub_cancel' (by omega)] at hfound
      refine ⟨s :: before, slice, suffix, rfl, hfound, ?_, by omega, by omega⟩
      rw [content_cons, length_append, length_window, hbefore]

theorem updateHeadersOrThrow_eq (hpos : 0 < hdr)
    (hfound : sliceContaining hdr 0 chain = some (slice, suffix)) (hle : hdr ≤ swapFileSz)
    (hfresh : fresh ≠ []) (hroom : fresh.length + slice.size ≤ free.length * pageSize)
    (hmod : 0 < hdr % pageSize) (hsize : hdr % pageSize ≤ slice.size) :
    ∃ chain', updateHeadersOrThrow chain swapFileSz swapFileSz hdr fresh free
        = some (chain' ++ suffix, swapFileSz - hdr + fresh.length) ∧
      content chain' = fresh ++ window slice.page (hdr % pageSize)
        (slice.size - hdr % pageSize) := by
  have hempty : ShmWriter.Wrote free.length ⟨[], 0, free⟩ [] := ⟨rfl, rfl, Nat.zero_add _, nofun⟩
  obtain ⟨w, hw, hwrote⟩ := hempty.append fresh (by simp; omega)
  obtain ⟨w', hw', hwrote'⟩ := hwrote.append
    (window slice.page (hdr % pageSize) (slice.size - hdr % pageSize)) (by simp; omega)
  have hslices : w'.slices ≠ [] := by
    intro hnil
    have hbytes := hwrote'.bytes_eq
    rw [hnil] at hbytes
    simp [content, hfresh] at hbytes
  refine ⟨w'.slices.reverse, ?_, hwrote'.bytes_eq⟩
  simp [updateHeadersOrThrow, guard, hpos, hfound, hle, hw, hmod, hsize, hw', hslices,
    hwrote.totalWritten]

theorem of_updateHeadersOrThrow_eq_some {r : List Slice × ℕ}
    (hfound : sliceContaining hdr 0 chain = some (slice, suffix))
    (h : updateHeadersOrThrow chain swapFileSz entrySwapFileSz hdr fresh free = some r) :
    swapFileSz = entrySwapFileSz ∧ 0 < hdr % pageSize ∧ hdr % pageSize ≤ slice.size := by
  simp [updateHeadersOrThrow, guard, hfound, Option.bind_eq_some_iff] at h
  obtain ⟨heq, -, -, w, -, hmod, hsize, -⟩ := h
  exact ⟨heq, Nat.pos_of_ne_zero hmod, hsize⟩

/-- The body is kept. -/
def KeepsBody (chain : List Slice) (swapFileSz entrySwapFileSz hdr : ℕ) (fresh : List UInt8)
    (free : List (ℕ → UInt8)) : Prop :=
  ∃ chain' swapFileSz', updateHeadersOrThrow chain swapFileSz entrySwapFileSz hdr fresh free
      = some (chain', swapFileSz') ∧
    content chain' = fresh ++ (content chain).drop hdr ∧
    (chain'.map Slice.size).sum = swapFileSz'

/-- **An update keeps the body just if the entry knows the size of the chain and the
headers end inside a slice that starts at a multiple of the page size.** -/
theorem keepsBody_iff (hchain : ∀ s ∈ chain, s.size ≤ pageSize) (hpos : 0 < hdr)
    (hle : hdr ≤ (chain.map Slice.size).sum) (hfresh : fresh ≠ [])
    (hfree : fresh.length + pageSize ≤ free.length * pageSize) :
    KeepsBody chain (chain.map Slice.size).sum entrySwapFileSz hdr fresh free ↔
      entrySwapFileSz = (chain.map Slice.size).sum ∧ hdr % pageSize ≠ 0 ∧
        sizeBefore hdr chain % pageSize = 0 := by
  rw [← length_content] at *
  obtain ⟨before, slice, suffix, rfl, hfound, hbefore, hlt, hle'⟩ :=
    sliceContaining_eq hdr hpos hle 0
  have hslice := hchain slice (by simp)
  have hroom : fresh.length + slice.size ≤ free.length * pageSize := by omega
  rw [Nat.zero_add] at hfound
  generalize sizeBefore hdr (before ++ slice :: suffix) = start at *
  have hlength : (content (before ++ slice :: suffix)).length
      = (content before).length + (slice.size + (content suffix).length) := by simp [length_content]
  constructor
  · rintro ⟨chain', swapFileSz', hupdate, hcontent, -⟩
    obtain ⟨rfl, hmod, hsize⟩ := of_updateHeadersOrThrow_eq_some hfound hupdate
    obtain ⟨written, heq, hwritten⟩ :=
      updateHeadersOrThrow_eq hpos hfound hle hfresh hroom hmod hsize
    obtain ⟨rfl, -⟩ := Prod.mk.inj (Option.some.inj (hupdate.symm.trans heq))
    -- the body has its size only if the remainder is the number of header bytes in the slice
    have hsizes := congrArg length hcontent
    rw [content_append, hwritten, length_append, length_append, length_append, length_drop,
      length_window, hlength] at hsizes
    have hrem : start = hdr - hdr % pageSize := by omega
    exact ⟨rfl, hmod.ne', hrem ▸ Nat.sub_mod_eq_zero_of_mod_eq (Nat.mod_mod _ _).symm⟩
  · rintro ⟨rfl, hmod, hstart⟩
    have hrem : hdr % pageSize = hdr - start := by
      have hsub : hdr % pageSize = (hdr - start) % pageSize := by
        conv_lhs => rw [← Nat.add_sub_cancel' hlt.le, Nat.add_mod, hstart,
          Nat.zero_add, Nat.mod_mod]
      rcases (show hdr - start ≤ pageSize by omega).eq_or_lt with heq | hlt'
      · exact absurd (by rw [hsub, heq, Nat.mod_self]) hmod
      · rw [hsub, Nat.mod_eq_of_lt hlt']
    obtain ⟨written, heq, hwritten⟩ := updateHeadersOrThrow_eq hpos hfound hle hfresh hroom
      (Nat.pos_of_ne_zero hmod) (by omega)
    have hcontent : content (written ++ suffix)
        = fresh ++ (content (before ++ slice :: suffix)).drop hdr := by
      rw [content_append, hwritten, append_assoc, content_append, content_cons, drop_append,
        drop_eq_nil_of_le (by omega), nil_append, hbefore, ← hrem,
        drop_append_of_le_length (by rw [length_window]; omega), drop_window _ _ _ _ (by omega),
        Nat.zero_add]
    refine ⟨_, _, heq, hcontent, ?_⟩
    rw [← length_content, hcontent, length_append, length_drop]
    omega

/-- The headers end in the second of three slices. -/
theorem keepsBody_iff_three :
    KeepsBody [⟨32768, fun i => .ofNat i⟩, ⟨100, fun i => .ofNat i⟩, ⟨50, fun _ => 7⟩] 32918 32918
      32800 [1, 2, 3] [fun _ => 0, fun _ => 0] :=
  (keepsBody_iff (by decide) (by decide) (by decide) (by decide) (by decide)).mpr (by decide)

-- the headers fill the first slice
theorem not_keepsBody_full_slice :
    ¬KeepsBody [⟨32768, fun _ => 0⟩, ⟨1, fun _ => 0⟩] 32769 32769 32768 [1]
      [fun _ => 0, fun _ => 0] :=
  fun ⟨_, _, h, _⟩ => absurd (of_updateHeadersOrThrow_eq_some rfl h).2.1 (by decide)

end MemStore
