import Revalle.Http.ContentLengthInterpreter

/-!
# What the HTTP/1 parsers share

The end of a header block is found by an automaton that remembers where in a
line it is, so more input never changes an end that was found. That is all that
incremental parsing needs to know of `grabMimeBlock`: what is done to the block
afterwards depends on the block alone.
-/

namespace Http.One

/-! ## The mime header block -/

/-- The states of `headersEnd`, from zero on. -/
inductive LineState
  | inLine
  | atStart
  | afterCr
  deriving DecidableEq, Repr

/-- One character further on. -/
def advance (fold : Bool) (result : Option (ℕ × Bool)) : Option (ℕ × Bool) :=
  result.map fun (n, fold') => (n + 1, fold || fold')

/-- The length of the header block and whether it contains an obs-fold, or
`none` if the end of the block is missing. -/
def headersEnd : LineState → List UInt8 → Option (ℕ × Bool)
  | _, [] => none
  | .inLine, c :: cs => advance false (headersEnd (if c = 0x0a then .atStart else .inLine) cs)
  | .atStart, c :: cs =>
    if c = 0x0d then advance false (headersEnd .afterCr cs)
    else if c = 0x0a then some (1, false)
    else advance (c = 0x20 || c = 0x09) (headersEnd .inLine cs)
  | .afterCr, c :: cs =>
    if c = 0x0a then some (1, false) else advance false (headersEnd .inLine cs)

/-- The loop of `cleanMimePrefix`: drops lines that begin with white space. -/
def skipWhitespaceLines : Bool → List UInt8 → List UInt8
  | _, [] => []
  | false, c :: cs => if relaxedDelimiterCharacters c then skipWhitespaceLines true cs else c :: cs
  | true, c :: cs => skipWhitespaceLines (c ≠ 0x0a) cs

def cleanMimePrefix (block : List UInt8) : List UInt8 :=
  match skipWhitespaceLines false block with
  | [] => [0x0d, 0x0a]
  | rest => rest

/-- Every round of the loop uses at least one character of `tok`. -/
def unfoldLoop : ℕ → List UInt8 → List UInt8
  | 0, _ => []
  | _ + 1, [] => []
  | fuel + 1, all =>
    let blob := all.takeWhile fun c => c ≠ 0x0d ∧ c ≠ 0x0a
    let tok := all.drop blob.length
    let crs := tok.takeWhile (· = 0x0d)
    let tok := tok.drop crs.length
    let lf := (tok.take 1).filter (· = 0x0a)
    let tok := tok.drop lf.length
    let wsp := tok.takeWhile fun c => c = 0x20 ∨ c = 0x09
    if lf ≠ [] ∧ wsp ≠ [] then blob ++ 0x20 :: unfoldLoop fuel (tok.drop wsp.length)
    else blob ++ crs ++ lf ++ unfoldLoop fuel tok

def unfoldMime (block : List UInt8) : List UInt8 := unfoldLoop block.length block

/-- What becomes of the buffer in `grabMimeBlock`. -/
inductive MimeBlock
  | found (block remaining : List UInt8)
  | tooLarge (remaining : List UInt8)
  | incomplete
  deriving DecidableEq, Repr

/-- `grabMimeBlock` for a protocol that has such a block. -/
def grabMimeBlock (limit firstLineSize : ℕ) (buf : List UInt8) : MimeBlock :=
  match headersEnd .atStart buf with
  | some (mimeHeaderBytes, containsObsFold) =>
    if limit ≤ firstLineSize + mimeHeaderBytes then .tooLarge (buf.drop mimeHeaderBytes)
    else
      let block := cleanMimePrefix (buf.take mimeHeaderBytes)
      .found (if containsObsFold then unfoldMime block else block) (buf.drop mimeHeaderBytes)
  | none => if limit ≤ buf.length + firstLineSize then .tooLarge buf else .incomplete

/-! ## More input -/

/-- What more input makes of an end: one that was found stays, and one that was missing comes
with the new input. -/
def Extends (length : ℕ) : Option (ℕ × Bool) → Option (ℕ × Bool) → Prop
  | some r, r' => r' = some r ∧ r.1 ≤ length
  | none, r' => ∀ r, r' = some r → length ≤ r.1

theorem Extends.advance {length : ℕ} {r r' : Option (ℕ × Bool)} (h : Extends length r r')
    (fold : Bool) : Extends (length + 1) (advance fold r) (advance fold r') := by
  cases r with
  | some r =>
    obtain ⟨rfl, hle⟩ := h
    exact ⟨rfl, Nat.succ_le_succ hle⟩
  | none =>
    intro x hx
    obtain ⟨y, hy, rfl⟩ := Option.map_eq_some_iff.mp hx
    exact Nat.succ_le_succ (h y hy)

theorem headersEnd_append (state : LineState) (a b : List UInt8) :
    Extends a.length (headersEnd state a) (headersEnd state (a ++ b)) := by
  induction a generalizing state with
  | nil => cases state <;> exact fun _ _ => Nat.zero_le _
  | cons c cs ih =>
    cases state with
    | inLine => exact (ih _).advance _
    | atStart =>
      simp only [List.cons_append, headersEnd]
      split_ifs
      · exact (ih _).advance _
      · exact ⟨rfl, Nat.succ_le_succ (Nat.zero_le _)⟩
      · exact (ih _).advance _
    | afterCr =>
      simp only [List.cons_append, headersEnd]
      split_ifs
      · exact ⟨rfl, Nat.succ_le_succ (Nat.zero_le _)⟩
      · exact (ih _).advance _

/-- **More input does not change what was decided about the block.** -/
theorem grabMimeBlock_append (limit firstLineSize : ℕ) (a b : List UInt8) :
    match grabMimeBlock limit firstLineSize a with
    | .found block rest => grabMimeBlock limit firstLineSize (a ++ b) = .found block (rest ++ b)
    | .tooLarge _ => ∃ rest, grabMimeBlock limit firstLineSize (a ++ b) = .tooLarge rest
    | .incomplete => True := by
  have happend := headersEnd_append .atStart a b
  cases ha : headersEnd .atStart a with
  | some r =>
    obtain ⟨n, fold⟩ := r
    rw [ha] at happend
    obtain ⟨happ, hle⟩ := happend
    unfold grabMimeBlock
    rw [ha, happ]
    by_cases hlimit : limit ≤ firstLineSize + n
    · simp only [if_pos hlimit]
      exact ⟨_, rfl⟩
    · simp only [if_neg hlimit]
      rw [List.take_append_of_le_length hle, List.drop_append_of_le_length hle]
  | none =>
    by_cases hlimit : limit ≤ a.length + firstLineSize
    · have hgrab : grabMimeBlock limit firstLineSize a = .tooLarge a := by
        rw [grabMimeBlock, ha]
        exact if_pos hlimit
      rw [hgrab]
      unfold grabMimeBlock
      cases hab : headersEnd .atStart (a ++ b) with
      | some r =>
        rw [ha] at happend
        have hlen := happend r hab
        exact ⟨_, if_pos (by omega)⟩
      | none => exact ⟨_, if_pos (by rw [List.length_append]; omega)⟩
    · have hgrab : grabMimeBlock limit firstLineSize a = .incomplete := by
        rw [grabMimeBlock, ha]
        exact if_neg hlimit
      rw [hgrab]
      trivial

/-- What is left of a block that is too large, too, unless its end comes with the new input. -/
theorem grabMimeBlock_tooLarge_append {limit firstLineSize : ℕ} {a rest : List UInt8}
    (h : grabMimeBlock limit firstLineSize a = .tooLarge rest) {b : List UInt8}
    (hend : limit ≤ a.length + firstLineSize → headersEnd .atStart a = none →
      headersEnd .atStart (a ++ b) = none) :
    grabMimeBlock limit firstLineSize (a ++ b) = .tooLarge (rest ++ b) := by
  have happend := headersEnd_append .atStart a b
  unfold grabMimeBlock at h ⊢
  cases ha : headersEnd .atStart a with
  | some r =>
    rw [ha] at h happend
    obtain ⟨happ, hle⟩ := happend
    rw [happ]
    by_cases hlimit : limit ≤ firstLineSize + r.1
    · simp only [if_pos hlimit] at h ⊢
      cases h
      rw [List.drop_append_of_le_length hle]
    · simp only [if_neg hlimit] at h
      cases h
  | none =>
    rw [ha] at h
    by_cases hlimit : limit ≤ a.length + firstLineSize
    · simp only [if_pos hlimit] at h
      cases h
      rw [hend hlimit ha]
      exact if_pos (by rw [List.length_append]; omega)
    · simp only [if_neg hlimit] at h
      cases h

/-- What is left of the buffer is a part of it. -/
theorem length_grabMimeBlock (limit firstLineSize : ℕ) (buf : List UInt8) :
    match grabMimeBlock limit firstLineSize buf with
    | .found _ rest | .tooLarge rest => rest.length ≤ buf.length
    | .incomplete => True := by
  have hdrop : ∀ n, (buf.drop n).length ≤ buf.length := fun n => (List.drop_suffix n buf).length_le
  unfold grabMimeBlock
  cases headersEnd .atStart buf with
  | some r =>
    by_cases hlimit : limit ≤ firstLineSize + r.1
    · simp only [if_pos hlimit, hdrop]
    · simp only [if_neg hlimit, hdrop]
  | none =>
    by_cases hlimit : limit ≤ buf.length + firstLineSize
    · simp only [if_pos hlimit, le_refl]
    · simp only [if_neg hlimit]

/-! ## Parts of a line -/

/-- What comes of a part of a line: a value and what follows it, an error, or the
need for more input. -/
inductive Part (α : Type)
  | ok (value : α) (rest : List UInt8)
  | error
  | more
  deriving DecidableEq, Repr

/-- One part after the other. -/
def Part.bind {α β : Type} (x : Part α) (g : α → List UInt8 → Part β) : Part β :=
  match x with
  | .ok value rest => g value rest
  | .error => .error
  | .more => .more

theorem Part.of_bind_eq_ok {α β : Type} {x : Part α} {g : α → List UInt8 → Part β} {value : β}
    {rest : List UInt8} (h : x.bind g = .ok value rest) :
    ∃ v r, x = .ok v r ∧ g v r = .ok value rest := by
  cases x with
  | ok v r => exact ⟨v, r, rfl, h⟩
  | error => cases h
  | more => cases h

/-- What is decided about a part does not change with more input. -/
def Settled {α : Type} (f : List UInt8 → Part α) : Prop :=
  ∀ a b, match f a with
    | .ok value rest => f (a ++ b) = .ok value (rest ++ b)
    | .error => f (a ++ b) = .error
    | .more => True

section

variable {α β : Type} {f : List UInt8 → Part α}

theorem Settled.ok (hf : Settled f) {a rest : List UInt8} {value : α} (h : f a = .ok value rest)
    (b : List UInt8) : f (a ++ b) = .ok value (rest ++ b) := by
  have := hf a b
  rwa [h] at this

theorem Settled.error (hf : Settled f) {a : List UInt8} (h : f a = .error) (b : List UInt8) :
    f (a ++ b) = .error := by
  have := hf a b
  rwa [h] at this

theorem Settled.bind {g : α → List UInt8 → Part β} (hf : Settled f) (hg : ∀ v, Settled (g v)) :
    Settled fun tok => (f tok).bind g := by
  intro a b
  cases h : f a with
  | ok value rest =>
    have happ := hf.ok h b
    simp only [h, happ, Part.bind]
    exact hg value rest b
  | error =>
    have happ := hf.error h b
    simp only [h, happ, Part.bind]
  | more => simp only [h, Part.bind]

theorem settled_ok (value : α) : Settled (Part.ok value) := fun _ _ => rfl

end

end Http.One
