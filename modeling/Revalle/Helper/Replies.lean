import Revalle.Helper.HandleRead

/-!
# Which request gets which reply

The session of a stateless helper, as far as the reader of `Helper.HandleRead` sees it, and
which request is handed which text. This should not depend on how the output of the helper is
cut into reads. It does: a read that ends in a channel number makes the reader take the
request with the number it has seen so far. Where no read ends in such a place (`GoodCut`)
and every line shows a number (`WellFormed`), the texts are those that the lines have
(`answer`).
-/

namespace Helper.Replies

open Ascii Http List

/-- A session: the requests it was handed, with their numbers, the one whose reply is being
read, and the texts that were returned. -/
structure Session (R : Type) where
  requests : List (ℕ × R)
  replyXaction : Option (R × List UInt8)
  nextRequestId : ℕ
  pending : ℕ
  timedout : ℕ
  closing : Bool
  returned : List (R × List UInt8)
  deriving DecidableEq

section Model

variable {R : Type} (cfg : Config) (react : List (R × List UInt8) → List R)

/-- `Session::popRequest`, on the list. -/
def pop (i : ℤ) (requests : List (ℕ × R)) : Option ((ℕ × R) × List (ℕ × R)) :=
  popFrom cfg Prod.fst i requests

def popRequest (i : ℤ) (s : Session R) : Session R :=
  match pop cfg i s.requests with
  | none => s
  | some (x, rest) => { s with requests := rest, replyXaction := some (x.2, []) }

/-- `helperDispatch`. -/
def dispatch (s : Session R) (r : R) : Session R :=
  { s with
    requests := s.requests ++ [((s.nextRequestId + 1) % 2 ^ 64, r)]
    nextRequestId := (s.nextRequestId + 1) % 2 ^ 64
    pending := s.pending + 1 }

/-- A request is called back, and the session is handed more requests, whether the callback
submits them, they are tried again or they were queued: `react` says which, after what was
returned so far. -/
def returnReply (r : R) (text : List UInt8) (s : Session R) : Session R :=
  (react (s.returned ++ [(r, text)])).foldl dispatch
    { s with
      replyXaction := none
      pending := s.pending - 1
      returned := s.returned ++ [(r, text)] }

/-- `helperReturnBuffer`. -/
def returnBuffer (text : List UInt8) (ended : Bool) (s : Session R) : Session R :=
  match s.replyXaction with
  | none => s
  | some (r, other) =>
    match accumulate other text with
    | none => { s with closing := true }
    | some other =>
      if ended then returnReply react r other s
      else { s with replyXaction := some (r, other) }

/-- The session for the reader. -/
def operations : Operations (Session R) where
  expecting s := s.pending != 0 || s.timedout != 0
  replying s := s.replyXaction.isSome
  popRequest := popRequest cfg
  returnBuffer text ended s := some (returnBuffer react text ended s)
  closePipesSafely s := { s with closing := true }
  isOpen s := !s.closing

/-! ## The lines -/

/-- The line without the CR of a CR LF. -/
def strip (line : List UInt8) : List UInt8 :=
  if line.getLast? = some 0x0d ∧ cfg.eom = 0x0a then line.dropLast else line

/-- The text that a line has for a request. -/
def textOf (line : List UInt8) : List UInt8 :=
  if cfg.concurrency = 0 then line else (strtol line).2.dropWhile isspace

/-- The request that a line is for: the one with its number, or the first one. -/
def requestOf (line : List UInt8) (requests : List (ℕ × R)) :
    Option ((ℕ × R) × List (ℕ × R)) :=
  if cfg.concurrency = 0 then
    match requests with
    | [] => none
    | x :: rest => some (x, rest)
  else
    (requests.find? (fun x => (x.1 : ℤ) = (strtol line).1)).map
      fun x => (x, requests.eraseP (fun x => (x.1 : ℤ) = (strtol line).1))

/-- **What a line is for**, where the session is not in the middle of a message. -/
def answer (s : Session R) (line : List UInt8) : Session R :=
  match requestOf cfg (strip cfg line) s.requests with
  | none => s
  | some (x, rest) =>
    returnReply react x.2 (textOf cfg (strip cfg line)) { s with requests := rest }

/-- A line that has a channel number with a blank or nothing after it, and the number means the
same outstanding request, if any, when it is cut to an `int`. -/
def WellFormed (requests : List (ℕ × R)) (line : List UInt8) : Prop :=
  cfg.concurrency ≠ 0 →
    (∀ x ∈ requests, x.1 = toUInt64 (toInt (strtol line).1) ↔ (x.1 : ℤ) = (strtol line).1) ∧
      ((strtol line).2 = [] ∨ (strtol line).2.head?.any isspace)

instance (requests : List (ℕ × R)) (line : List UInt8) :
    Decidable (WellFormed cfg requests line) := by
  unfold WellFormed
  infer_instance

/-- Each of the lines is well formed for the requests that are outstanding when it comes. -/
def AllWellFormed : Session R → List (List UInt8) → Prop
  | _, [] => True
  | s, line :: lines =>
    WellFormed cfg s.requests (strip cfg line) ∧ AllWellFormed (answer cfg react s line) lines

instance decidableAllWellFormed : ∀ (s : Session R) (lines : List (List UInt8)),
    Decidable (AllWellFormed cfg react s lines)
  | _, [] => isTrue trivial
  | s, line :: lines =>
    haveI := decidableAllWellFormed (answer cfg react s line) lines
    inferInstanceAs (Decidable (_ ∧ _))

/-- What has come of a line shows its channel number and a blank. -/
def Shown (p : List UInt8) : Prop :=
  (strtol p).2.length < p.length ∧ (strtol p).2.head?.any isspace = true

instance (p : List UInt8) : Decidable (Shown p) := by
  unfold Shown
  infer_instance

/-- **A place where a read may end**: between two lines, or in the text of a line, which
includes its beginning, and not between CR and LF. -/
def GoodCut (p : List UInt8) (next : Option UInt8) : Prop :=
  p ≠ [] → (cfg.concurrency ≠ 0 →
      Shown p ∧ (textOf cfg p = [] → next.any isspace = false ∨ next = some cfg.eom)) ∧
    ¬(p.getLast? = some 0x0d ∧ cfg.eom = 0x0a ∧ next = some 0x0a)

instance (p : List UInt8) (next : Option UInt8) : Decidable (GoodCut cfg p next) := by
  unfold GoodCut
  infer_instance

/-- The bytes of the line that has not ended. -/
def unfinished (stream : List UInt8) : List UInt8 := stream.rtakeWhile (· != cfg.eom)

end Model

/-! ## Channel numbers -/

theorem toUInt64_toInt {n : ℤ} (h0 : 0 ≤ n) (h1 : n < 2 ^ 31) (id : ℕ) :
    id = toUInt64 (toInt n) ↔ (id : ℤ) = n := by
  have hint : toInt n = n := by
    show (if n % 2 ^ 32 < (2 ^ 32 + 1) / 2 then n % 2 ^ 32 else n % 2 ^ 32 - 2 ^ 32) = n
    split <;> omega
  rw [hint, toUInt64]
  omega

/-- **A channel number that an `int` can hold** is always good. -/
theorem wellFormed_of_lt {R : Type} (cfg : Config) (requests : List (ℕ × R)) {line : List UInt8}
    (h0 : 0 ≤ (strtol line).1) (h1 : (strtol line).1 < 2 ^ 31)
    (hblank : (strtol line).2 = [] ∨ (strtol line).2.head?.any isspace) :
    WellFormed cfg requests line :=
  fun _ => ⟨fun x _ => toUInt64_toInt h0 h1 x.1, hblank⟩

section Numbers

variable {p : List UInt8}

theorem strtoll_append (h : (strtoll p).2.2.length < p.length)
    (hrest : (strtoll p).2.2 ≠ []) (q : List UInt8) : (strtoll (p ++ q)).1 = (strtoll p).1 ∧
      (strtoll (p ++ q)).2.2 = (strtoll p).2.2 ++ q := by
  unfold strtoll at h hrest ⊢
  simp only at h hrest ⊢
  generalize ht : p.dropWhile isspace = t at h hrest ⊢
  by_cases hdigits : (readSign t).2.takeWhile isdigit = []
  · rw [if_pos hdigits] at h
    exact absurd h (lt_irrefl _)
  have hne : t ≠ [] := by
    rintro rfl
    exact hdigits rfl
  have hdrop : (p ++ q).dropWhile isspace = t ++ q := by
    rw [dropWhile_append, ht, if_neg (by simpa using hne)]
  have hsign : readSign (t ++ q) = ((readSign t).1, (readSign t).2 ++ q) := by
    cases t with
    | nil => exact absurd rfl hne
    | cons c cs =>
      show (if c = 0x2d then (true, cs ++ q) else if c = 0x2b then (false, cs ++ q)
        else (false, c :: (cs ++ q))) = _
      rw [readSign]
      split
      · rfl
      · split <;> rfl
  have hrest' : (readSign t).2.dropWhile isdigit ≠ [] := by
    intro hnil
    rw [if_neg hdigits, hnil] at hrest
    generalize (if (readSign t).1 = true then _ else _ : ℤ) = number at hrest
    split at hrest
    · exact hrest rfl
    · split at hrest <;> exact hrest rfl
  have htake : ((readSign t).2 ++ q).takeWhile isdigit = (readSign t).2.takeWhile isdigit := by
    rw [takeWhile_append, if_neg]
    intro hlen
    refine hrest' ?_
    have hall := congrArg length (takeWhile_append_dropWhile (p := isdigit) (l := (readSign t).2))
    rw [length_append] at hall
    exact eq_nil_of_length_eq_zero (by omega)
  have hdrop' : ((readSign t).2 ++ q).dropWhile isdigit =
      (readSign t).2.dropWhile isdigit ++ q := by
    rw [dropWhile_append, if_neg (by simpa using hrest')]
  rw [hdrop, hsign]
  simp only [htake, hdrop', if_neg hdigits]
  generalize (if (readSign t).1 = true then _ else _ : ℤ) = number
  split
  · exact ⟨rfl, rfl⟩
  · split <;> exact ⟨rfl, rfl⟩

/-- **The number that has been shown does not change**, whatever follows. -/
theorem strtol_append (h : Shown p) (q : List UInt8) :
    strtol (p ++ q) = ((strtol p).1, (strtol p).2 ++ q) := by
  have hrest : (strtoll p).2.2 ≠ [] := by
    intro hnil
    have hspace := h.2
    rw [strtol, hnil] at hspace
    exact nomatch hspace
  obtain ⟨hnumber, hrest'⟩ := strtoll_append h.1 hrest q
  rw [strtol, hnumber, hrest']
  rfl

end Numbers

end Helper.Replies
