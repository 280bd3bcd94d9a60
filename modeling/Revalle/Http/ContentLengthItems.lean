import Revalle.Http.HttpHeader

/-!
# What the interpreter reads

A `Content-Length` field denotes a list of numbers, one for each item that is
well formed. `number` and `items` say which, without a scanner: an item is a
number if it consists of digits, apart from the white space around it. The
interpreter is right about a field if it ends up with the number that all of
the items denote, or else with `sawBad`.

It reads what is `shown` to it. `strListGetItem` skips spaces and tabs before an
item but trims all white space behind it, and takes an item that is empty then
for the end of the list. So a vertical tab or a form feed between two commas ends
the list early.
-/

namespace Http

open Ascii List Option

/-! ## Items and numbers -/

/-- The number that an item denotes, if it is well formed. -/
def number (item : List UInt8) : Option ℕ :=
  if trim item ≠ [] ∧ (trim item).all isdigit ∧ digitsValue (trim item) < 2 ^ 63 then
    some (digitsValue (trim item))
  else none

/-- The items of a value: what stands between commas and is not blank. -/
def items (value : List UInt8) : List (List UInt8) :=
  if 0x2c ∈ value then (value.splitOn 0x2c).filter (trim · ≠ []) else [value]

/-- A piece that ends a list early: blank, and with a vertical tab or a form feed in it. -/
def Hides (piece : List UInt8) : Prop := trim piece = [] ∧ (0x0b ∈ piece ∨ 0x0c ∈ piece)

instance (piece : List UInt8) : Decidable (Hides piece) := inferInstanceAs (Decidable (_ ∧ _))

/-- The pieces of a list that are not blank, up to one that hides the rest. -/
def shownPieces (list : List UInt8) : List (List UInt8) :=
  ((list.splitOn 0x2c).takeWhile (¬Hides ·)).filter (trim · ≠ [])

/-- The items of a value that are read. -/
def shown (value : List UInt8) : List (List UInt8) :=
  if 0x2c ∈ value then shownPieces value else [value]

/-- A value shows all of its items. -/
def Visible (value : List UInt8) : Prop := ∀ piece ∈ value.splitOn 0x2c, ¬Hides piece

instance (value : List UInt8) : Decidable (Visible value) := by
  unfold Visible
  infer_instance

theorem shown_subset (value : List UInt8) : shown value ⊆ items value := by
  unfold shown items shownPieces
  split
  · exact filter_subset _ (takeWhile_subset _)
  · exact Subset.refl _

theorem shown_of_visible {value : List UInt8} (h : Visible value) : shown value = items value := by
  have hall : (value.splitOn 0x2c).takeWhile (¬Hides ·) = value.splitOn 0x2c :=
    takeWhile_eq_self_iff.mpr fun piece hp => decide_eq_true (h piece hp)
  rw [shown, items, shownPieces, hall]

variable {t w d p : List UInt8} {c : UInt8}

section

variable (hw : ∀ c ∈ w, isspace c)
include hw

theorem rdropWhile_append_right : (t ++ w).rdropWhile isspace = t.rdropWhile isspace := by
  rw [rdropWhile, rdropWhile, reverse_append,
    dropWhile_append_of_pos fun c hc => hw c (mem_reverse.mp hc)]

theorem trim_append_right : trim (t ++ w) = trim t := by
  rw [trim, trim, dropWhile_append]
  split
  next h =>
    rw [isEmpty_iff.mp h, dropWhile_eq_nil_iff.mpr hw]
  next => exact rdropWhile_append_right hw

end

section

variable (hc : c ∈ t) (hs : isspace c = false)
include hc hs

theorem mem_dropWhile : c ∈ t.dropWhile isspace := by
  rw [← takeWhile_append_dropWhile (p := isspace) (l := t)] at hc
  refine (mem_append.mp hc).resolve_left fun h => ?_
  rw [mem_takeWhile_imp h] at hs
  cases hs

theorem mem_rdropWhile : c ∈ t.rdropWhile isspace := by
  rw [rdropWhile, mem_reverse]
  exact mem_dropWhile (mem_reverse.mpr hc) hs

end

@[simp] theorem trim_nil : trim [] = [] := rfl

theorem trim_eq_nil_iff : trim t = [] ↔ ∀ c ∈ t, isspace c := by
  rw [trim, rdropWhile_eq_nil_iff]
  constructor
  · intro h c hc
    by_contra hs
    exact hs (h c (mem_dropWhile hc (by simpa using hs)))
  · exact fun h c hc => h c ((dropWhile_suffix _).subset hc)

/-- Nothing that ends a trimmed text ends in white space. -/
theorem not_isspace_getLast {s : List UInt8} (ht : t.rdropWhile isspace = t) (hs : s <:+ t)
    (hne : s ≠ []) : ¬ isspace (s.getLast hne) := by
  obtain ⟨w, rfl⟩ := hs
  have h := rdropWhile_eq_self_iff.mp ht (append_ne_nil_of_right_ne_nil w hne)
  rwa [getLast_append_of_ne_nil _ hne] at h

theorem trim_of_rdropWhile (ht : t.rdropWhile isspace = t) : trim t = t.dropWhile isspace := by
  rw [trim, rdropWhile_eq_self_iff]
  exact not_isspace_getLast ht (dropWhile_suffix _)

/-- A number has no characters but digits and white space. -/
theorem trim_trim (t : List UInt8) : trim (trim t) = trim t := by
  have h := trim_of_rdropWhile (t := trim t) (rdropWhile_idempotent _ _)
  rw [h, dropWhile_eq_self_iff]
  intro hpos hspace
  -- the first character is the first that was not dropped
  obtain ⟨w, hw⟩ := rdropWhile_prefix isspace (l := t.dropWhile isspace)
  change trim t ++ w = t.dropWhile isspace at hw
  have hhead := head?_dropWhile_not isspace t
  rw [← hw, head?_append_of_ne_nil _ (ne_nil_of_length_pos hpos),
    head?_eq_getElem?, getElem?_eq_getElem hpos] at hhead
  exact Bool.false_ne_true (hhead.symm.trans hspace)

theorem number_eq_none_of_mem (hc : c ∈ t) (hd : isdigit c = false) (hs : isspace c = false) :
    number t = none := by
  rw [number, if_neg]
  rintro ⟨-, hall, -⟩
  have hmem : c ∈ trim t := mem_rdropWhile (mem_dropWhile hc hs) hs
  rw [all_eq_true.mp hall c hmem] at hd
  cases hd

/-! ## One value -/

/-- What follows a number does not begin with a digit. -/
def Ends (tail : List UInt8) : Prop := ∀ c ∈ tail.head?, isdigit c = false

theorem Ends.append {s tail : List UInt8} (hs : Ends s) (htail : Ends tail) : Ends (s ++ tail) := by
  cases s with
  | nil => exact htail
  | cons c cs => exact hs

theorem takeWhile_digits {tail : List UInt8} (hd : ∀ c ∈ d, isdigit c) (htail : Ends tail) :
    (d ++ tail).takeWhile isdigit = d ∧ (d ++ tail).dropWhile isdigit = tail := by
  rw [takeWhile_append_of_pos hd, dropWhile_append_of_pos hd]
  cases tail with
  | nil => simp
  | cons c cs =>
    have hc := htail c rfl
    simp [hc]

theorem strtoll_digits {tail : List UInt8} (hne : d ≠ []) (hd : ∀ c ∈ d, isdigit c)
    (htail : Ends tail) : strtoll (d ++ tail) =
      if digitsValue d < 2 ^ 63 then ((digitsValue d : ℤ), false, tail)
      else (2 ^ 63 - 1, true, tail) := by
  obtain ⟨hw, hr⟩ := takeWhile_digits hd htail
  have hsign : readSign ((d ++ tail).dropWhile isspace) = (false, d ++ tail) := by
    cases d with
    | nil => exact absurd rfl hne
    | cons c cs =>
      have hc := hd c (mem_cons_self ..)
      have hs : isspace c = false := by
        by_contra h
        rw [not_isdigit_of_isspace (by simpa using h)] at hc
        cases hc
      have h1 : c ≠ 0x2d := by rintro rfl; revert hc; decide
      have h2 : c ≠ 0x2b := by rintro rfl; revert hc; decide
      simp [hs, readSign, h1, h2]
  have hlow : ¬ (digitsValue d : ℤ) < -2 ^ 63 := by omega
  have hhigh : (2 ^ 63 : ℤ) ≤ digitsValue d ↔ ¬ digitsValue d < 2 ^ 63 := by omega
  unfold strtoll
  simp only [hsign, hw, hr, if_neg hne, Bool.false_eq_true, if_false, if_neg hlow, hhigh, ite_not]

theorem httpHeaderParseOffset_digits (tail : List UInt8) (hne : d ≠ []) (hd : ∀ c ∈ d, isdigit c)
    (htail : Ends tail) : httpHeaderParseOffset (d ++ tail) =
      if digitsValue d < 2 ^ 63 then some ((digitsValue d : ℤ), tail) else none := by
  unfold httpHeaderParseOffset
  rw [strtoll_digits hne hd htail]
  by_cases hbig : digitsValue d < 2 ^ 63
  · rw [if_pos hbig, if_pos hbig]
    simp [hne]
  · rw [if_neg hbig, if_neg hbig]
    simp

theorem isspace_of_relaxedDelimiter (h : relaxedDelimiterCharacters c) : isspace c := by
  simp only [relaxedDelimiterCharacters, Bool.or_eq_true, beq_iff_eq] at h
  rcases h with (((rfl | rfl) | rfl) | rfl) | rfl <;> decide

theorem isspace_of_whitespace {relaxed : Bool} (h : whitespaceCharacters relaxed c) :
    isspace c := by
  cases relaxed with
  | true => exact isspace_of_relaxedDelimiter h
  | false =>
    simp only [whitespaceCharacters, Bool.false_eq_true, if_false, Bool.or_eq_true, beq_iff_eq] at h
    rcases h with rfl | rfl <;> decide

theorem isspace_of_delimiter {relaxed : Bool} (h : delimiterCharacters relaxed c) : isspace c := by
  cases relaxed with
  | true => exact isspace_of_relaxedDelimiter h
  | false =>
    simp only [delimiterCharacters, Bool.false_eq_true, if_false, beq_iff_eq] at h
    rw [h]
    decide

/-- To the relaxed parser all white space is alike, but for the line feed. -/
theorem whitespace_of_isspace (h : isspace c) (hlf : c ≠ 0x0a) : whitespaceCharacters true c := by
  simp only [isspace, Bool.or_eq_true, Bool.and_eq_true, beq_iff_eq, decide_eq_true_eq,
    UInt8.le_iff_toNat_le] at h
  simp only [whitespaceCharacters, relaxedDelimiterCharacters, if_true, Bool.or_eq_true,
    beq_iff_eq, ← UInt8.toNat_inj] at hlf ⊢
  rcases h with rfl | ⟨h1, h2⟩
  · decide
  · have h1' : 9 ≤ c.toNat := h1
    have h2' : c.toNat ≤ 13 := h2
    have h3 : c.toNat ≠ 10 := fun h => hlf (UInt8.toNat_inj.mp h)
    simp only [UInt8.reduceToNat]
    omega

namespace ContentLengthInterpreter

variable {relaxed : Bool} {clen : ContentLengthInterpreter}

theorem findDigits_append (tail : List UInt8) : ∀ t : List UInt8,
    (∀ c ∈ t.takeWhile isspace, whitespaceCharacters relaxed c) →
    findDigits relaxed (t ++ tail) t.length =
      if (t.dropWhile isspace).takeWhile isdigit = [] then none
      else some (t.dropWhile isspace ++ tail, (t.dropWhile isspace).length)
  | [], _ => by cases tail <;> rfl
  | c :: cs, h => by
    rw [cons_append, length_cons, findDigits]
    cases hs : isspace c with
    | true =>
      have hc : whitespaceCharacters relaxed c := h c (by simp [hs])
      rw [not_isdigit_of_isspace hs, if_neg (by decide), if_pos hc,
        findDigits_append tail cs fun x hx => h x (by simp [hs, hx])]
      simp [hs]
    | false =>
      have hw : whitespaceCharacters relaxed c = false := by
        by_contra hw
        rw [isspace_of_whitespace (by simpa using hw)] at hs
        cases hs
      cases hd : isdigit c <;> simp [hs, hd, hw]

/-- What becomes of the interpreter when it meets an item. -/
def meet (relaxed : Bool) (clen : ContentLengthInterpreter) (item : List UInt8) :
    Bool × ContentLengthInterpreter :=
  match number item with
  | none => (false, { clen with sawBad := true })
  | some n => clen.checkLatest relaxed n

/-- **A value is read as the number that it denotes**, even if the string goes
on behind it. -/
theorem checkValue_eq {t : List UInt8} (tail : List UInt8) (hbad : clen.sawBad = false)
    (hleft : ∀ c ∈ t.takeWhile isspace, whitespaceCharacters relaxed c)
    (hright : t.rdropWhile isspace = t) (htail : Ends tail) :
    clen.checkValue relaxed (t ++ tail) t.length = some (clen.meet relaxed t) := by
  have htrim := trim_of_rdropWhile hright
  rw [checkValue, hbad, if_neg nofun, findDigits_append tail t hleft, meet, number, htrim]
  set r := t.dropWhile isspace with hr
  have hparts : r.takeWhile isdigit ++ r.dropWhile isdigit = r :=
    takeWhile_append_dropWhile
  by_cases hnil : r.takeWhile isdigit = []
  · have hnot : ¬(r ≠ [] ∧ r.all isdigit ∧ digitsValue r < 2 ^ 63) := by
      rintro ⟨hne, hall, -⟩
      rw [takeWhile_eq_self_iff.mpr (all_eq_true.mp hall)] at hnil
      exact hne hnil
    rw [if_pos hnil, if_neg hnot]
  · rw [if_neg hnil]
    set d := r.takeWhile isdigit with hd
    set s := r.dropWhile isdigit with hs
    have hdigits : ∀ c ∈ d, isdigit c := fun _ => mem_takeWhile_imp
    have hends : Ends s := fun c hc => by
      have := head?_dropWhile_not isdigit r
      rw [← hs, mem_def.mp hc] at this
      simpa using this
    have hoff := httpHeaderParseOffset_digits _ hnil hdigits (hends.append htail)
    rw [← append_assoc, hparts] at hoff
    have hlen : r.length - ((r ++ tail).length - (s ++ tail).length) = s.length := by
      rw [length_append, length_append, ← hparts, length_append]
      omega
    by_cases hsuffix : s = []
    · -- the digits are all there is
      have hrd : r = d := by rw [← hparts, hsuffix, append_nil]
      have hall : r.all isdigit := all_eq_true.mpr (hrd ▸ hdigits)
      rw [← hrd] at hoff hnil
      by_cases hbig : digitsValue r < 2 ^ 63
      · rw [if_pos hbig] at hoff
        rw [if_pos ⟨hnil, hall, hbig⟩]
        have hpos : ¬ (digitsValue r : ℤ) < 0 := by omega
        simp only [hoff, hlen]
        rw [if_neg hpos, hsuffix, goodSuffix, length_nil, take_zero, if_pos all_nil]
      · rw [if_neg hbig] at hoff
        rw [if_neg fun h => hbig h.2.2]
        simp only [hoff]
    · -- the suffix is no white space, for nothing is behind it
      have hgood : goodSuffix relaxed (s ++ tail) s.length = false := by
        rw [goodSuffix, take_left]
        by_contra h
        have hspace := isspace_of_delimiter
          (all_eq_true.mp (by simpa using h) _ (getLast_mem hsuffix))
        exact not_isspace_getLast hright (hs ▸ (dropWhile_suffix _).trans
          (dropWhile_suffix _)) hsuffix hspace
      have hall : ¬ r.all isdigit := fun h => hsuffix (dropWhile_eq_nil_iff.mpr (all_eq_true.mp h))
      rw [if_neg fun h => hall h.2.1]
      split at hoff
      · simp only [hoff, hlen, hgood]
        simp
      · simp only [hoff]

end ContentLengthInterpreter

/-! ## The items of a list -/

/-- Where an item ends: at a comma, or with the string. -/
def AtComma (pos : List UInt8) : Prop := ∀ c ∈ pos.head?, c = 0x2c

theorem AtComma.ends {pos : List UInt8} (h : AtComma pos) : Ends pos := fun c hc => by
  rw [h c hc]
  decide

theorem skipItem_suffix (quoted : Bool) (pos : List UInt8) :
    skipItem 0x2c quoted pos <:+ pos ∧ AtComma (skipItem 0x2c quoted pos) := by
  fun_induction skipItem 0x2c quoted pos with
  | case1 => exact ⟨suffix_rfl, nofun⟩
  | case2 cs ih | case4 c cs _ _ ih | case5 ih | case7 d cs ih | case9 c d cs _ _ ih =>
    exact ⟨ih.1.trans (suffix_cons _ _), ih.2⟩
  | case3 c cs _ h =>
    refine ⟨suffix_rfl, fun x hx => ?_⟩
    rw [head?_cons, mem_some_iff] at hx
    rcases h with h | h <;> exact hx ▸ h
  | case6 => exact ⟨nil_suffix, nofun⟩
  | case8 d cs _ ih =>
    exact ⟨ih.1.trans ((suffix_cons _ _).trans (suffix_cons _ _)), ih.2⟩

/-- Up to a comma or a quote, nothing stops the search. -/
theorem skipItem_append {q : List UInt8} (pos : List UInt8) (hcomma : 0x2c ∉ q)
    (hquote : 0x22 ∉ q) : skipItem 0x2c false (q ++ pos) = skipItem 0x2c false pos := by
  induction q with
  | nil => rfl
  | cons c cs ih =>
    rw [mem_cons, not_or] at hcomma hquote
    rw [cons_append, skipItem, if_neg (Ne.symm hquote.1),
      if_neg (by rintro (h | h) <;> exact hcomma.1 h.symm), ih hcomma.2 hquote.2]

theorem skipItem_atComma {pos : List UInt8} (h : AtComma pos) : skipItem 0x2c false pos = pos := by
  cases pos with
  | nil => rfl
  | cons c cs =>
    have hc := h c rfl
    subst hc
    rfl

theorem isspace_of_itemDelimiter (h : itemDelimiter 0x2c c) (hc : c ≠ 0x2c) : isspace c := by
  simp only [itemDelimiter, Bool.or_eq_true, beq_iff_eq] at h
  rcases h with ((((rfl | h) | h) | rfl) | rfl) | rfl <;> first | exact absurd h hc | decide

theorem strListGetItem_skip (pos : List UInt8) (hw : ∀ c ∈ w, itemDelimiter 0x2c c) :
    strListGetItem 0x2c (w ++ pos) = strListGetItem 0x2c pos := by
  unfold strListGetItem
  rw [dropWhile_append_of_pos hw]

/-- **The next item** is what stands before the comma, unless there is a quote,
and then it is no number. -/
theorem strListGetItem_item (hcomma : 0x2c ∉ p) (hp : trim p ≠ []) (ht : AtComma t) :
    ∃ item tail pos, strListGetItem 0x2c (p ++ t) = some (item ++ tail, item.length, pos) ∧
      item ++ tail <:+ p ++ t ∧ item.rdropWhile isspace = item ∧ Ends tail ∧
      pos.length < (p ++ t).length ∧ number item = number p ∧ (pos = t ∨ number p = none) := by
  set w := p.takeWhile (itemDelimiter 0x2c) with hw
  set q := p.dropWhile (itemDelimiter 0x2c) with hq
  have hwq : w ++ q = p := takeWhile_append_dropWhile
  have hwspace : ∀ c ∈ w, isspace c := fun c hc =>
    isspace_of_itemDelimiter (mem_takeWhile_imp hc) fun h =>
      hcomma (h ▸ (List.takeWhile_prefix _).subset hc)
  have htrim : trim q = trim p := by
    rw [← hwq, trim, trim, dropWhile_append_of_pos hwspace]
  have hqne : q ≠ [] := fun h => hp (by rw [← htrim, h]; rfl)
  have hdrop : (p ++ t).dropWhile (itemDelimiter 0x2c) = q ++ t := by
    rw [dropWhile_append, if_neg fun h => hqne (isEmpty_iff.mp h)]
  have hqcomma : 0x2c ∉ q := fun h => hcomma ((dropWhile_suffix _).subset h)
  obtain ⟨⟨x, hx⟩, hat⟩ := skipItem_suffix false (q ++ t)
  set pos := skipItem 0x2c false (q ++ t) with hpos
  have hnumber : number (x.rdropWhile isspace) = number p ∧ x.rdropWhile isspace ≠ [] ∧
      (pos = t ∨ number p = none) := by
    have hxtrim : trim (x.rdropWhile isspace) = trim x := by
      conv_rhs => rw [← rdropWhile_append_rtakeWhile (p := isspace) (l := x)]
      exact (trim_append_right fun _ => mem_rtakeWhile_imp).symm
    by_cases hquote : 0x22 ∈ q
    · -- the quote is inside of the item
      obtain ⟨q1, q2, hq12, hq1⟩ := eq_append_cons_of_mem hquote
      have hskip : pos = skipItem 0x2c true (q2 ++ t) := by
        rw [hpos, hq12, append_assoc,
          skipItem_append _ (fun h => hqcomma (hq12 ▸ mem_append_left _ h)) hq1]
        rfl
      obtain ⟨z, hz⟩ := hskip ▸ (skipItem_suffix true (q2 ++ t)).1
      have hxz : x = q1 ++ 0x22 :: z := by
        refine (append_left_inj pos).mp ?_
        rw [hx, hq12, append_assoc, append_assoc, cons_append, cons_append, hz]
      have hmem : 0x22 ∈ x.rdropWhile isspace :=
        mem_rdropWhile (hxz ▸ mem_append_right _ (mem_cons_self ..)) rfl
      have hnone : number p = none :=
        number_eq_none_of_mem ((dropWhile_suffix _).subset hquote) rfl rfl
      exact ⟨(number_eq_none_of_mem hmem rfl rfl).trans hnone.symm, ne_nil_of_mem hmem, .inr hnone⟩
    · have hpt : pos = t := by rw [hpos, skipItem_append t hqcomma hquote, skipItem_atComma ht]
      have hxq : x = q := append_cancel_right (hpt ▸ hx)
      have heq : trim (x.rdropWhile isspace) = trim p := by rw [hxtrim, hxq, htrim]
      refine ⟨by rw [number, number, heq], fun h => hp ?_, .inl hpt⟩
      rw [← heq, h]
      rfl
  obtain ⟨hnum, hne, hrest⟩ := hnumber
  have hparts : x.rdropWhile isspace ++ x.rtakeWhile isspace = x :=
    rdropWhile_append_rtakeWhile
  have hlen : 0 < (x.rdropWhile isspace).length := length_pos_of_ne_nil hne
  have htext : x.rdropWhile isspace ++ (x.rtakeWhile isspace ++ pos) = q ++ t := by
    rw [← append_assoc, hparts, hx]
  refine ⟨x.rdropWhile isspace, x.rtakeWhile isspace ++ pos, pos, ?_, ?_,
    rdropWhile_idempotent _ _, ?_, ?_, hnum, hrest⟩
  · have htake : (q ++ t).take ((q ++ t).length - pos.length) = x := by
      rw [← hx, length_append, Nat.add_sub_cancel, take_left]
    unfold strListGetItem
    simp only [hdrop, ← hpos, htake, hlen, if_true, htext]
  · rw [htext, ← hwq, append_assoc]
    exact suffix_append _ _
  · refine Ends.append (fun c hc => not_isdigit_of_isspace ?_) hat.ends
    exact mem_rtakeWhile_imp (mem_of_mem_head? hc)
  · have h := congrArg length htext
    have hpq := congrArg length hwq
    simp only [length_append] at h hpq ⊢
    omega

theorem splitOn_append (hcomma : 0x2c ∉ p) (ht : AtComma t) :
    ∃ ps, t.splitOn 0x2c = [] :: ps ∧ (p ++ t).splitOn 0x2c = p :: ps := by
  cases t with
  | nil => exact ⟨[], by simp, by rw [append_nil, splitOn_eq_singleton hcomma]⟩
  | cons c cs =>
    have hc := ht c rfl
    subst hc
    exact ⟨cs.splitOn 0x2c, splitOn_append_cons_self_of_not_mem not_mem_nil cs,
      splitOn_append_cons_self_of_not_mem hcomma cs⟩

theorem shownPieces_append (hcomma : 0x2c ∉ p) (ht : AtComma t) : shownPieces (p ++ t) =
    if Hides p then [] else (if trim p ≠ [] then [p] else []) ++ shownPieces t := by
  obtain ⟨ps, h1, h2⟩ := splitOn_append hcomma ht
  rw [shownPieces, shownPieces, h1, h2]
  by_cases hp : Hides p
  · simp [hp]
  · have hnil : ¬Hides [] := by decide
    by_cases hb : trim p = [] <;> simp [hp, hnil, hb]

/-- A blank that does not hide anything is skipped. -/
theorem itemDelimiter_of_not_hides (hp : trim p = []) (hv : ¬Hides p) (hc : c ∈ p) :
    itemDelimiter 0x2c c := by
  have hspace := trim_eq_nil_iff.mp hp c hc
  by_cases hlf : c = 0x0a
  · rw [hlf]
    decide
  have hwhite := whitespace_of_isspace hspace hlf
  simp only [whitespaceCharacters, relaxedDelimiterCharacters, if_true, Bool.or_eq_true,
    beq_iff_eq] at hwhite
  rcases hwhite with (((rfl | rfl) | rfl) | rfl) | rfl
  · decide
  · decide
  · exact absurd ⟨hp, .inl hc⟩ hv
  · exact absurd ⟨hp, .inr hc⟩ hv
  · decide

/-- **A piece that hides the rest** is taken for the end of the list. -/
theorem strListGetItem_of_hides (hcomma : 0x2c ∉ p) (hp : Hides p) (ht : AtComma t) :
    strListGetItem 0x2c (p ++ t) = none := by
  obtain ⟨hblank, hmem⟩ := hp
  have hspace := trim_eq_nil_iff.mp hblank
  set q := p.dropWhile (itemDelimiter 0x2c) with hq
  have hsub : ∀ c ∈ q, c ∈ p := fun c hc => (dropWhile_suffix _).subset hc
  -- the vertical tab or form feed is not skipped
  have hqne : q ≠ [] := by
    rw [hq, ne_eq, dropWhile_eq_nil_iff]
    intro hall
    rcases hmem with h | h
    · exact absurd (hall _ h) (by decide)
    · exact absurd (hall _ h) (by decide)
  have hquote : 0x22 ∉ q := fun h => absurd (hspace _ (hsub _ h)) (by decide)
  have hskip : skipItem 0x2c false (q ++ t) = t := by
    rw [skipItem_append t (fun h => hcomma (hsub _ h)) hquote, skipItem_atComma ht]
  have hdrop : (p ++ t).dropWhile (itemDelimiter 0x2c) = q ++ t := by
    rw [dropWhile_append, if_neg fun h => hqne (isEmpty_iff.mp h)]
  have htake : (q ++ t).take ((q ++ t).length - t.length) = q := by
    rw [length_append, Nat.add_sub_cancel, take_left]
  have hnil : q.rdropWhile isspace = [] :=
    rdropWhile_eq_nil_iff.mpr fun c hc => hspace c (hsub c hc)
  unfold strListGetItem
  simp only [hdrop, hskip, htake, hnil, length_nil, lt_irrefl, if_false]

/-! ## What was read -/

/-- All items denote the number `n`. -/
def Agree (l : List (Option ℕ)) (n : ℕ) : Prop := ∀ x ∈ l, x = some n

theorem Agree.of_append_left {l l' : List (Option ℕ)} {n : ℕ} (h : Agree (l ++ l') n) : Agree l n :=
  fun x hx => h x (mem_append_left _ hx)

namespace ContentLengthInterpreter

variable {relaxed : Bool} {clen : ContentLengthInterpreter} {l : List (Option ℕ)}

/-- The interpreter has read items that denote `l`. -/
structure Reads (clen : ContentLengthInterpreter) (l : List (Option ℕ)) : Prop where
  bad : clen.sawBad = true → ¬∃ n, Agree l n
  nothing : clen.sawBad = false → clen.sawGood = false → l = []
  good : clen.sawBad = false → clen.sawGood = true →
    ∃ n : ℕ, clen.value = n ∧ some n ∈ l ∧ Agree l n

/-- Once something bad was read, the rest does not matter. -/
theorem Reads.sawBad_iff (h : Reads clen l) : clen.sawBad = true ↔ ¬∃ n, Agree l n := by
  refine ⟨h.bad, fun hno => ?_⟩
  cases hbad : clen.sawBad with
  | true => rfl
  | false =>
    cases hgood : clen.sawGood with
    | false =>
      rw [h.nothing hbad hgood] at hno
      exact absurd ⟨0, nofun⟩ hno
    | true => exact absurd ((h.good hbad hgood).imp fun _ hn => hn.2.2) hno

theorem Reads.append (h : Reads clen l) (hbad : clen.sawBad = true) (l' : List (Option ℕ)) :
    Reads clen (l ++ l') where
  bad := fun _ ⟨n, hn⟩ => h.bad hbad ⟨n, hn.of_append_left⟩
  nothing := fun hb => by rw [hbad] at hb; cases hb
  good := fun hb => by rw [hbad] at hb; cases hb

theorem meet_true {item : List UInt8} (h : (clen.meet relaxed item).1 = true) :
    clen.sawGood = false ∧ ∃ n : ℕ, number item = some n ∧
      (clen.meet relaxed item).2 = { clen with sawGood := true, value := n } := by
  unfold meet at h ⊢
  cases hn : number item with
  | none =>
    rw [hn] at h
    cases h
  | some n =>
    rw [hn] at h
    unfold checkLatest at h ⊢
    cases hg : clen.sawGood with
    | true =>
      rw [hg] at h
      cases h
    | false => exact ⟨rfl, n, rfl, rfl⟩

/-- **A step of the interpreter.** The strict parser gives up where this says
nothing. -/
theorem Reads.meet (h : Reads clen l) (hbad : clen.sawBad = false) (item : List UInt8)
    (hr : clen.sawGood = true → relaxed = true) :
    Reads (clen.meet relaxed item).2 (l ++ [number item]) := by
  unfold ContentLengthInterpreter.meet
  cases hn : number item with
  | none =>
    refine ⟨fun _ ⟨n, hag⟩ => ?_, nofun, nofun⟩
    exact nomatch hag none (mem_append_right _ (mem_singleton.mpr rfl))
  | some m =>
    unfold checkLatest
    cases hg : clen.sawGood with
    | false =>
      rw [h.nothing hbad hg, nil_append]
      refine ⟨fun hb => ?_, nofun, fun _ _ => ⟨m, rfl, ?_, ?_⟩⟩
      · rw [show clen.sawBad = true from hb] at hbad
        cases hbad
      · exact mem_singleton.mpr rfl
      · exact fun _ => mem_singleton.mp
    | true =>
      obtain ⟨n, hvalue, hmem, hag⟩ := h.good hbad hg
      simp only [if_true, hr hg, hvalue, Bool.not_true, Bool.false_or]
      refine ⟨fun hb ⟨k, hk⟩ => ?_, nofun, fun hb _ => ⟨n, rfl, ?_, ?_⟩⟩
      · -- both numbers would be the one that all items denote
        have h1 := some.inj (hk _ (mem_append_left _ hmem))
        have h2 := some.inj (hk _ (mem_append_right _ (mem_singleton.mpr rfl)))
        simp [h1, h2] at hb
      · exact mem_append_left _ hmem
      · have hnm : (n : ℤ) = m := by simpa using hb
        rw [← Int.ofNat.inj hnm]
        exact forall_mem_append.mpr ⟨hag, forall_mem_singleton.mpr rfl⟩

/-- What an item does not change. -/
theorem meet_keeps (item : List UInt8) :
    (clen.meet relaxed item).2.prohibitedAndIgnored = clen.prohibitedAndIgnored ∧
      (clen.sawGood = true → (clen.meet relaxed item).2.sawGood = true) := by
  unfold meet checkLatest
  cases number item with
  | none => exact ⟨rfl, id⟩
  | some n => cases clen.sawGood <;> exact ⟨rfl, fun _ => rfl⟩

/-- **The relaxed parser reads a list**, piece by piece. -/
theorem checkItems_reads {k : ℕ} (fuel : ℕ) {pos : List UInt8} (hk : pos.length < k)
    (hlf : 0x0a ∉ pos) (hfuel : pos.length < fuel) (hreads : Reads clen l)
    (hbad : clen.sawBad = false) : ∃ clen', checkItems true fuel clen pos = some clen' ∧
      Reads clen' (l ++ (shownPieces pos).map number) ∧
      clen'.prohibitedAndIgnored = clen.prohibitedAndIgnored ∧
      (clen.sawGood = true → clen'.sawGood = true) := by
  induction k generalizing pos fuel clen l with
  | zero => exact absurd hk (Nat.not_lt_zero _)
  | succ k ih =>
    obtain ⟨fuel, rfl⟩ := Nat.exists_eq_succ_of_ne_zero (Nat.ne_of_gt (Nat.zero_lt_of_lt hfuel))
    set p := pos.takeWhile (· ≠ 0x2c) with hp
    set t := pos.dropWhile (· ≠ 0x2c) with ht
    have hpt : p ++ t = pos := takeWhile_append_dropWhile
    have hcomma : 0x2c ∉ p := fun h => by simpa using mem_takeWhile_imp h
    have hat : AtComma t := fun c hc => by
      have := head?_dropWhile_not (· ≠ (0x2c : UInt8)) pos
      rw [← ht, mem_def.mp hc] at this
      simpa using this
    rw [← hpt] at hlf hk hfuel ⊢
    have hlft : 0x0a ∉ t := fun h => hlf (mem_append_right _ h)
    rw [shownPieces_append hcomma hat]
    by_cases hhides : Hides p
    · rw [if_pos hhides, map_nil, append_nil]
      refine ⟨clen, ?_, hreads, rfl, id⟩
      rw [checkItems, strListGetItem_of_hides hcomma hhides hat]
    rw [if_neg hhides]
    by_cases hptrim : trim p = []
    · -- a blank piece is skipped together with its comma
      have hskip : ∀ c ∈ p, itemDelimiter 0x2c c :=
        fun c hc => itemDelimiter_of_not_hides hptrim hhides hc
      rw [if_neg (not_not.mpr hptrim), nil_append]
      cases hcase : t with
      | nil =>
        refine ⟨clen, ?_, ?_, rfl, id⟩
        · rw [checkItems, strListGetItem_skip [] hskip]
          rfl
        · rw [show shownPieces [] = [] by decide, map_nil, append_nil]
          exact hreads
      | cons c rest =>
        have hc : c = 0x2c := hat c (by rw [hcase]; rfl)
        subst hc
        have hpieces : shownPieces (0x2c :: rest) = shownPieces rest := by
          have hnil : ¬Hides [] := by decide
          rw [shownPieces, shownPieces, ← nil_append (0x2c :: rest),
            splitOn_append_cons_self_of_not_mem not_mem_nil rest]
          simp [hnil]
        rw [hcase] at hk hfuel hlft
        simp only [length_append, length_cons] at hk hfuel
        obtain ⟨clen', hrun, hr', hkeep⟩ := ih (fuel + 1) (by omega)
          (fun h => hlft (mem_cons_of_mem _ h)) (by omega) hreads hbad
        refine ⟨clen', ?_, hpieces ▸ hr', hkeep⟩
        rw [← hrun, checkItems, checkItems, show p ++ 0x2c :: rest = (p ++ [0x2c]) ++ rest by
          simp, strListGetItem_skip rest]
        exact forall_mem_append.mpr ⟨hskip, forall_mem_singleton.mpr (by decide)⟩
    · obtain ⟨item, tail, pos', hget, hsub, hright, hends, hlen, hnum, hrest⟩ :=
        strListGetItem_item hcomma hptrim hat
      have hleft : ∀ c ∈ item.takeWhile isspace, whitespaceCharacters true c := fun c hc =>
        whitespace_of_isspace (mem_takeWhile_imp hc) fun h => hlf (hsub.subset
          (mem_append_left _ (h ▸ (List.takeWhile_prefix _).subset hc)))
      have hstep := hreads.meet hbad item fun _ => Eq.refl true
      rw [hnum] at hstep
      rw [if_pos hptrim, map_append, map_singleton, ← append_assoc]
      rw [checkItems, hget]
      simp only [checkValue_eq tail hbad hleft hright hends]
      cases hsaw : (clen.meet true item).2.sawBad with
      | true =>
        have hfalse : (clen.meet true item).1 = false := by
          by_contra h
          obtain ⟨-, n, -, heq⟩ := meet_true (by simpa using h)
          rw [heq] at hsaw
          exact nomatch hbad.symm.trans hsaw
        exact ⟨_, by rw [hfalse]; rfl, hstep.append hsaw _, meet_keeps item⟩
      | false =>
        have hpos : pos' = t := hrest.resolve_right fun hnone => by
          unfold meet at hsaw
          rw [hnum.trans hnone] at hsaw
          cases hsaw
        subst hpos
        obtain ⟨clen', hrun, hr', hpro, hgood⟩ := ih fuel (by omega) hlft (by omega) hstep hsaw
        obtain ⟨hpro0, hgood0⟩ := @meet_keeps true clen item
        refine ⟨clen', ?_, hr', hpro.trans hpro0, fun h => hgood (hgood0 h)⟩
        rw [Bool.and_false, if_neg nofun]
        exact hrun

/-- What the reading of a field does to the interpreter. A field that is
remembered is the first, and no list. -/
structure FieldRead (relaxed : Bool) (clen : ContentLengthInterpreter) (l : List (Option ℕ))
    (value : List UInt8) (good : Bool) (clen' : ContentLengthInterpreter) : Prop where
  reads : good = true ∨ relaxed = true → Reads clen' (l ++ (shown value).map number)
  prohibited : clen'.prohibitedAndIgnored = clen.prohibitedAndIgnored
  keeps : clen.sawGood = true → clen'.sawGood = true
  first : good = true → clen.sawGood = false ∧ clen'.sawGood = true ∧ shown value = [value]

/-- A field that is no list is one item. -/
theorem checkField_single (relaxed : Bool) {value : List UInt8} (hbad : clen.sawBad = false)
    (htrim : trim value = value) (hcomma : 0x2c ∉ value) :
    clen.checkField relaxed value = some (clen.meet relaxed value) := by
  have hright : value.rdropWhile isspace = value := by
    conv_rhs => rw [← htrim, trim, ← rdropWhile_idempotent]
    rw [← trim, htrim]
  have hleft : ∀ c ∈ value.takeWhile isspace, whitespaceCharacters relaxed c := by
    have hdrop : value.dropWhile isspace = value := by
      rw [← trim_of_rdropWhile hright, htrim]
    have hnil : value.takeWhile isspace = [] := by
      have hparts := takeWhile_append_dropWhile (p := isspace) (l := value)
      rw [hdrop] at hparts
      exact append_left_eq_self.mp hparts
    rw [hnil]
    exact fun c hc => (nomatch hc)
  have heq := checkValue_eq [] hbad hleft hright nofun
  rw [append_nil] at heq
  rw [checkField, if_neg (by simp [hbad]), if_neg hcomma, heq]

/-- **A field is read as what its items denote**, as far as they are shown. -/
theorem checkField_reads (relaxed : Bool) (h : Reads clen l) {value : List UInt8}
    (htrim : trim value = value) (hlf : 0x0a ∉ value) :
    ∃ good clen', clen.checkField relaxed value = some (good, clen') ∧
      FieldRead relaxed clen l value good clen' := by
  cases hbad : clen.sawBad with
  | true =>
    refine ⟨false, clen, ?_, fun _ => h.append hbad _, rfl, id, nofun⟩
    rw [checkField, if_pos hbad]
  | false =>
    by_cases hcomma : 0x2c ∈ value
    · rw [checkField, if_neg (by simp [hbad]), if_pos hcomma, checkList, if_neg (by simp [hbad])]
      have hitems : shown value = shownPieces value := if_pos hcomma
      cases hrelaxed : relaxed with
      | false =>
        exact ⟨false, _, rfl, fun hr => (by simp at hr), rfl, id, nofun⟩
      | true =>
        have h' : Reads { clen with needsSanitizing := true } l := ⟨h.bad, h.nothing, h.good⟩
        obtain ⟨clen', hrun, hreads, hpro, hgood⟩ := checkItems_reads _
          (Nat.lt_succ_self _) hlf (Nat.lt_succ_self _) h' hbad
        refine ⟨false, clen', by rw [hrun]; rfl, fun _ => hitems ▸ hreads, hpro, hgood, nofun⟩
    · have hitems : shown value = [value] := if_neg hcomma
      refine ⟨_, _, checkField_single relaxed hbad htrim hcomma, fun hr => ?_,
        (meet_keeps value).1, (meet_keeps value).2, fun hg => ?_⟩
      · rw [hitems, map_singleton]
        refine h.meet hbad value fun hg => hr.resolve_left fun hgood => ?_
        exact nomatch hg.symm.trans (meet_true hgood).1
      · obtain ⟨hfirst, n, -, hn⟩ := meet_true hg
        exact ⟨hfirst, congrArg ContentLengthInterpreter.sawGood hn, hitems⟩

end ContentLengthInterpreter

end Http
