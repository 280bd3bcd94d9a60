import Revalle.Http.HeaderStorage

/-!
# Quoted strings

`httpHeaderQuoteString` puts a backslash before each quote and backslash, which is what the
parser expects. But behind a backslash the parser copies a run of characters that are
neither, so that it never copies what was escaped (`quoted_iff`).
-/

namespace Http

open List HeaderStorage.HttpHeader

def needsQuote (c : UInt8) : Bool := c == 0x22 || c == 0x5C

def httpHeaderQuoteString (raw : List UInt8) : List UInt8 :=
  let inner := if raw.any needsQuote then
    raw.flatMap fun c => if needsQuote c then [0x5C, c] else [c] else raw
  0x22 :: inner ++ [0x22]

/-- A control character, and no line break. -/
def ctl (c : UInt8) : Bool := c ≤ 0x1F && c != 0x0D && c != 0x0A || c == 0x7F

/-- What the inner loop copies. -/
def plain (c : UInt8) : Bool := c != 0x5C && c != 0x22 && 0x1F < c && c != 0x7F

/-- The loop at `pos`, with `left` bytes of the field left. A string ends with a NUL. Where
`String::append` asserts that there is room, there is no value. -/
def quotedLoop (left : ℕ) (pos val : List UInt8) : Option (List UInt8) :=
  match pos with
  | [] => none
  | c :: rest =>
    if c = 0x22 then some val
    else if left = 0 then none
    else if c = 0x0D ∨ c = 0x0A then
      let skipped := if c = 0x0D then 1 else 0
      if (c = 0x0D → rest.head? = some 0x0A) ∧ skipped < left ∧
          ((rest.drop skipped).head? = some 0x20 ∨ (rest.drop skipped).head? = some 0x09) ∧
          val.length + 1 < sizeMax then
        quotedLoop (left - skipped - 2) (rest.drop (skipped + 1)) (val ++ [0x20])
      else none
    else if if c = 0x5C then rest.headD 0 = 0 else ctl c then none
    else
      -- a backslash is skipped, and any other character begins the run
      let run := (rest.take (left - 1)).takeWhile plain
      let copied := if c = 0x5C then run else c :: run
      if ctl ((rest.drop run.length).headD 0) ∨ sizeMax ≤ (val ++ copied).length then none
      else quotedLoop (left - 1 - run.length) (rest.drop run.length) (val ++ copied)
termination_by pos.length

/-- The value of a quoted-string of `len` bytes. -/
def httpHeaderParseQuotedString (start : List UInt8) (len : ℕ) : Option (List UInt8) :=
  if start.head? = some 0x22 then quotedLoop (len - 1) start.tail [] else none

variable {left : ℕ} {pos val v raw : List UInt8}

/-- **No quote and no backslash is ever copied.** -/
theorem any_quotedLoop (h : quotedLoop left pos val = some v)
    (hval : val.any needsQuote = false ∧ val.length < sizeMax) :
    v.any needsQuote = false ∧ v.length < sizeMax := by
  fun_induction quotedLoop left pos val with
  | case2 => exact Option.some.inj h ▸ hval
  | case4 left val c rest _ _ _ _ hroom ih =>
    exact ih h ⟨by simp [hval, needsQuote], by simpa using hroom.2.2.2⟩
  | case8 left val c rest hquote _ _ _ run copied hroom ih =>
    have hrun : run.any needsQuote = false := by
      refine any_eq_false.mpr fun d hd => ?_
      have hplain := mem_takeWhile_imp hd
      simp only [plain, Bool.and_eq_true, bne_iff_ne] at hplain
      simp [needsQuote, hplain]
    refine ih h ⟨?_, Nat.lt_of_not_le (not_or.mp hroom).2⟩
    unfold copied
    split <;> simp [*, needsQuote]
  | _ => cases h

theorem quotedLoop_plain (hraw : ∀ c ∈ raw, plain c) (hroom : raw.length < sizeMax) :
    quotedLoop (raw.length + 1) (raw ++ [0x22]) [] = some raw := by
  cases raw with
  | nil => simp [quotedLoop]
  | cons c cs =>
    obtain ⟨hc, hcs⟩ := forall_mem_cons.mp hraw
    have hrun : ((cs ++ [0x22]).take (cs.length + 1)).takeWhile plain = cs := by
      rw [take_of_length_le (by simp), takeWhile_append_of_pos hcs]
      simp [plain]
    simp only [plain, Bool.and_eq_true, bne_iff_ne, decide_eq_true_eq] at hc
    have hbreak : ¬(c = 0x0D ∨ c = 0x0A) := by
      rintro (rfl | rfl) <;> exact absurd hc.1.2 (by decide)
    rw [cons_append, quotedLoop]
    simpa [hc, hbreak, UInt8.not_le.mpr hc.1.2, hrun, ctl, quotedLoop] using hroom

/-- **A string comes back iff it has neither quotes nor backslashes**, and a `String` can
hold it. -/
theorem quoted_iff (raw : List UInt8) (hraw : ∀ c ∈ raw, 0x1F < c ∧ c ≠ 0x7F) :
    httpHeaderParseQuotedString (httpHeaderQuoteString raw) (httpHeaderQuoteString raw).length =
      some raw ↔ raw.any needsQuote = false ∧ raw.length < sizeMax := by
  refine ⟨fun h => any_quotedLoop h ⟨rfl, by decide⟩, fun ⟨h, hroom⟩ => ?_⟩
  have hplain : ∀ c ∈ raw, plain c := fun c hc => by
    have hquote := any_eq_false.mp h c hc
    simp [needsQuote] at hquote
    simp [plain, hquote, hraw c hc]
  simpa [httpHeaderParseQuotedString, httpHeaderQuoteString, h] using quotedLoop_plain hplain hroom

theorem quoted_space : httpHeaderParseQuotedString (httpHeaderQuoteString [0x61, 0x20]) 4 =
    some [0x61, 0x20] :=
  (quoted_iff [0x61, 0x20] (by decide +kernel)).mpr (by decide)

/-- **`a"b` comes back as `a`**, for the quote behind the backslash ends the string. -/
theorem quoted_quote : httpHeaderParseQuotedString (httpHeaderQuoteString [0x61, 0x22, 0x62]) 6 =
    some [0x61] := by
  decide +kernel

end Http
