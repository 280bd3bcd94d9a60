import Revalle.Http.ContentLengthInterpreter

/-!
# Reading the answers of a helper

A model of `helperHandleRead` of `src/helper.cc`: what a session of a stateless helper does
with the bytes that have come. The reader keeps bytes that do not show a channel number yet,
and whether the rest of a message is to be ignored. It moves a request to `replyXaction`
when a message begins, and hands it parts of the message; what this does to the session and
to its client is a parameter, `Operations`, for the reader does not depend on it.

A failed `assert` is `none`.
-/

namespace Helper

open Ascii Option List

/-- The size of the input buffer, `rbuf_sz`. -/
def ReadBufSize : ℕ := 128 * 1024

/-- What the client has configured: the byte that ends a message, and how many requests a
helper may have at a time. Zero stands for a helper that knows no channel numbers. -/
structure Config where
  eom : UInt8
  concurrency : ℕ

/-- The reader between two reads: the bytes at the beginning of `rbuf`, and `ignoreToEom`. -/
structure Reader where
  rbuf : List UInt8
  ignoreToEom : Bool
  deriving DecidableEq

/-- What the reader does to the rest of the session. -/
structure Operations (σ : Type) where
  /-- Whether requests are pending, or have timed out. -/
  expecting : σ → Bool
  /-- Whether there is a `replyXaction`. -/
  replying : σ → Bool
  /-- The request with a number, or the first one, becomes the `replyXaction`. -/
  popRequest : ℤ → σ → σ
  /-- `helperReturnBuffer`, for a part of a message, and whether it is the last one. -/
  returnBuffer : List UInt8 → Bool → σ → Option σ
  closePipesSafely : σ → σ
  /-- Whether there can be a next read. -/
  isOpen : σ → Bool

/-! ## The beginning of a message -/

/-- `strchr`, as what comes before and after the byte. The search ends at a NUL. -/
def strchr (eom : UInt8) : List UInt8 → Option (List UInt8 × List UInt8)
  | [] => none
  | c :: cs =>
    if c = eom then some ([], cs)
    else if c = 0 then none
    else (strchr eom cs).map fun found => (c :: found.1, found.2)

/-- The message at the beginning of the buffer without its end, which is CR LF or the end
byte, and what follows if the end is there. -/
def nextMessage (eom : UInt8) (msg : List UInt8) : List UInt8 × Option (List UInt8) :=
  match strchr eom msg with
  | none => (msg, none)
  | some (line, rest) =>
    if line.getLast? = some 0x0d ∧ eom = 0x0a then (line.dropLast, some rest)
    else (line, some rest)

/-- `strtol` for base ten: the number, and what follows it. A `long` has 64 bits. -/
def strtol (text : List UInt8) : ℤ × List UInt8 :=
  ((Http.strtoll text).1, (Http.strtoll text).2.2)

/-- A `long` that is assigned to an `int`. -/
def toInt (n : ℤ) : ℤ := Int.bmod n (2 ^ 32)

/-- An `int` that is compared with the numbers of requests, which are `uint64_t`. -/
def toUInt64 (i : ℤ) : ℕ := (i % 2 ^ 64).toNat

/-- `Session::popRequest` on the list of requests: the one with the number, or without channel
numbers the first one, and the others. -/
def popFrom {α : Type} (cfg : Config) (number : α → ℕ) (i : ℤ) (requests : List α) :
    Option (α × List α) :=
  if cfg.concurrency = 0 then
    match requests with
    | [] => none
    | r :: rest => some (r, rest)
  else
    (requests.find? (fun r => number r = toUInt64 i)).map
      fun r => (r, requests.eraseP (fun r => number r = toUInt64 i))

theorem perm_cons_eraseP {α : Type} {p : α → Bool} {l : List α} {a : α}
    (h : l.find? p = some a) : l.Perm (a :: l.eraseP p) := by
  obtain ⟨ha, before, after, rfl, hbefore⟩ := find?_eq_some_iff_append.mp h
  rw [eraseP_append_right _ (by simpa using hbefore), eraseP_cons_of_pos ha]
  exact perm_middle

/-- **A request that is taken** is missing in the list, and nothing else. -/
theorem popFrom_perm {α : Type} {cfg : Config} {number : α → ℕ} {i : ℤ} {requests rest : List α}
    {r : α} (h : popFrom cfg number i requests = some (r, rest)) : requests.Perm (r :: rest) := by
  unfold popFrom at h
  split at h
  · cases requests with
    | nil => exact nomatch h
    | cons x xs =>
      cases h
      exact List.Perm.refl _
  · obtain ⟨x, hx, heq⟩ := map_eq_some_iff.mp h
    cases heq
    exact perm_cons_eraseP hx

/-- The channel number of a message, and its text, unless the number is not known to be
complete (`needsMore`). -/
def channel (cfg : Config) (line : List UInt8) (ended : Bool) : ℤ × Option (List UInt8) :=
  if cfg.concurrency = 0 then (0, some line)
  else
    let (number, rest) := strtol line
    if rest.head?.any isspace || ended && rest.isEmpty then
      (toInt number, some (rest.dropWhile isspace))
    else (toInt number, none)

/-- `Reply::accumulate`: the text of a reply, which has room for a MiB with the terminator. -/
def accumulate (other text : List UInt8) : Option (List UInt8) :=
  if text.length ≤ 1024 * 1024 - (other.length + 1) then some (other ++ text) else none

section Reading

variable {σ : Type} (cfg : Config) (ops : Operations σ)

/-- The part of the loop before a message is handed over: the text to hand over, unless more
bytes are needed, and `ignoreToEom`. The request is taken in both cases. -/
def startMessage (line : List UInt8) (ended ignoreToEom : Bool) (s : σ) :
    Option (List UInt8) × Bool × σ :=
  if !ignoreToEom && !ops.replying s then
    let (i, text) := channel cfg line ended
    (text, !ops.replying (ops.popRequest i s), ops.popRequest i s)
  else (some line, ignoreToEom, s)

/-! ## The loop -/

/-- The loop over the messages in the buffer, with a bound on how many they are, and the end
of `helperHandleRead`. -/
def loop (roffset : ℕ) : ℕ → List UInt8 → Bool → σ → Option (Reader × σ)
  | 0, _, _, _ => none
  | fuel + 1, msg, ignoreToEom, s =>
    if msg.headD 0 = 0 then
      -- assert(msg - rbuf == roffset)
      if msg = [] then some (⟨[], ignoreToEom⟩, s) else none
    else
      let (line, rest) := nextMessage cfg.eom msg
      match startMessage cfg ops line rest.isSome ignoreToEom s with
      | (none, ignoreToEom, s) =>
        -- assert(skip == 0 && eom == nullptr)
        if rest.isSome then none else some (⟨msg, ignoreToEom⟩, s)
      | (some text, ignoreToEom, s) =>
        -- assert(msgSize <= rbuf_sz)
        if text.length ≤ ReadBufSize then
          match ops.returnBuffer text rest.isSome s, rest with
          | none, _ => none
          | some s, none => some (⟨[], ignoreToEom⟩, s)
          | some s, some rest =>
            -- assert(msg - rbuf <= rbuf_sz)
            if roffset - rest.length ≤ ReadBufSize then loop roffset fuel rest false s else none
        else none

/-- A read, where no bytes stand for an end of file or an error. -/
def helperHandleRead (data : List UInt8) (r : Reader) (s : σ) : Option (Reader × σ) :=
  if data = [] then some (r, ops.closePipesSafely s)
  else if !ops.expecting s then some (⟨[], r.ignoreToEom⟩, ops.closePipesSafely s)
  else
    (loop cfg ops (r.rbuf ++ data).length ((r.rbuf ++ data).length + 1) (r.rbuf ++ data)
      r.ignoreToEom s).bind fun after =>
        -- assert(spaceSize >= 0)
        if ops.isOpen after.2 = true → after.1.rbuf.length + 1 ≤ ReadBufSize then some after
        else none

/-- Reads, as long as the pipe is open. -/
def reads : List (List UInt8) → Reader × σ → Option (Reader × σ)
  | [], st => some st
  | data :: pieces, st =>
    if ops.isOpen st.2 then (helperHandleRead cfg ops data st.1 st.2).bind (reads pieces)
    else some st

/-! ## What a read preserves -/

variable {cfg ops} {P : σ → Prop}

variable (hpop : ∀ i s, P s → ops.replying s = false → P (ops.popRequest i s))
include hpop

theorem startMessage_preserves {s : σ} (h : P s) (line : List UInt8) (ended ignoreToEom : Bool) :
    P (startMessage cfg ops line ended ignoreToEom s).2.2 := by
  unfold startMessage
  split
  · rename_i hstart
    rw [Bool.and_eq_true, Bool.not_eq_true', Bool.not_eq_true'] at hstart
    exact hpop _ s h hstart.2
  · exact h

variable (hreturn : ∀ text ended s s', P s → ops.returnBuffer text ended s = some s' → P s')
include hreturn

/-- **What the operations preserve, a read preserves.** -/
theorem loop_preserves {roffset fuel : ℕ} {msg : List UInt8} {ignoreToEom : Bool} {s : σ}
    {after : Reader × σ} (h : P s)
    (hloop : loop cfg ops roffset fuel msg ignoreToEom s = some after) : P after.2 := by
  induction fuel generalizing msg ignoreToEom s with
  | zero => exact absurd hloop (by simp [loop])
  | succ fuel ih =>
    rw [loop] at hloop
    split at hloop
    · split at hloop
      · cases hloop
        exact h
      · exact nomatch hloop
    · have hstart : ∀ line ended, P (startMessage cfg ops line ended ignoreToEom s).2.2 :=
        fun line ended => startMessage_preserves hpop h line ended ignoreToEom
      split at hloop
      rename_i line rest _
      split at hloop
      · rename_i heq
        have hafter := hstart line rest.isSome
        rw [heq] at hafter
        split at hloop
        · exact nomatch hloop
        · cases hloop
          exact hafter
      · rename_i heq
        have hafter := hstart line rest.isSome
        rw [heq] at hafter
        split at hloop
        · split at hloop
          · exact nomatch hloop
          · rename_i hbuffer
            cases hloop
            exact hreturn _ _ _ _ hafter hbuffer
          · rename_i hbuffer
            split at hloop
            · exact ih (hreturn _ _ _ _ hafter hbuffer) hloop
            · exact nomatch hloop
        · exact nomatch hloop

theorem helperHandleRead_preserves (hclose : ∀ s, P s → P (ops.closePipesSafely s))
    {data : List UInt8} {r : Reader} {s : σ} {after : Reader × σ} (h : P s)
    (hread : helperHandleRead cfg ops data r s = some after) : P after.2 := by
  unfold helperHandleRead at hread
  split at hread
  · cases hread
    exact hclose s h
  · split at hread
    · cases hread
      exact hclose s h
    · obtain ⟨st, hloop, hst⟩ := bind_eq_some_iff.mp hread
      split at hst
      · cases hst
        exact loop_preserves hpop hreturn h hloop
      · exact nomatch hst

end Reading

end Helper
