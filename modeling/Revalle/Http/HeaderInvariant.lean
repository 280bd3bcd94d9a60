import Revalle.Data.Outcome
import Revalle.Http.HeaderStorage

/-!
# What a header knows about its entries

The bits of `mask` are right after every history of calls, so that the searches
that rely on them never fail. For `len` this is not so: `updateOrAddStr` replaces a
value in place and deletes repeated entries without changing it. When that changes
how long the header is, `len` is wrong from then on, and deleting an entry can bring
it below zero, where the assertion of `delAt` stops the program.

Otherwise `len` is right, as long as it fits an `int` (`header_invariant`).
-/

namespace HeaderStorage

open Outcome RegisteredHeaders HttpHeader HttpHeaderMask
open List hiding lookup length

/-- An assertion that relies on the bits of the mask. -/
def Assertion.aboutMask : Assertion → Bool
  | .count | .found | .sameName => true
  | _ => false

/-- **The bit of a known id is set iff there is an entry with it.** -/
def MaskExact (h : HttpHeader) : Prop :=
  ∀ id : HdrType, id.registered = true →
    (h.mask id = true ↔ ∃ e ∈ h.entries.reduceOption, e.id = id)

/-- **`len` is right**, also when `n` more bytes are added. -/
def Fits (n : ℕ) (h : HttpHeader) : Prop :=
  h.len = packedLength h.entries ∧ packedLength h.entries + n < 2 ^ 31

theorem toInt_of_lt {n : ℕ} (hn : n < 2 ^ 31) : toInt n = n := by
  exact Int.bmod_eq_of_le (by omega) (by omega)

/-! ## The loops that delete -/

section

variable (es : List (Option HttpHeaderEntry))

@[simp] theorem reduceOption_map_filter (keep : HttpHeaderEntry → Bool) :
    (es.map (Option.filter keep)).reduceOption = es.reduceOption.filter keep := by
  rw [reduceOption, filterMap_map, filter_filterMap]
  rfl

@[simp] theorem packedLength_none : packedLength (none :: es) = packedLength es := by
  simp [packedLength]

@[simp] theorem packedLength_some (e : HttpHeaderEntry) :
    packedLength (some e :: es) = e.length + packedLength es := by
  simp [packedLength]

theorem packedLength_concat (e : HttpHeaderEntry) :
    packedLength (es ++ [some e]) = packedLength es + e.length := by
  simp [packedLength, reduceOption_append]

end

/-! ## The bits of the mask -/

variable (gone : HttpHeaderEntry → Bool)

section

variable (es : List HttpHeaderEntry) (mask : HttpHeaderMask)

/-- Setting the bits of the entries that are kept. -/
theorem foldl_set_iff (id : HdrType) :
    es.foldl (fun mask e => if gone e then mask else mask.set e.id) mask id = true ↔
      mask id = true ∨ ∃ e ∈ es.filter (fun e => !gone e), e.id = id := by
  induction es generalizing mask with
  | nil => simp
  | cons e es ih =>
    rw [foldl_cons, ih]
    cases hgone : gone e with
    | true => simp [hgone]
    | false =>
      by_cases hid : e.id = id
      · simp [hgone, hid, HttpHeaderMask.set]
      · simp [hgone, hid, HttpHeaderMask.set, Function.update_of_ne (Ne.symm hid)]

/-- Clearing the bits of the entries that are deleted. -/
theorem foldl_clear_iff (id : HdrType) :
    es.foldl (fun mask e => if gone e then mask.clear e.id else mask) mask id = true ↔
      mask id = true ∧ ∀ e ∈ es, gone e = true → e.id ≠ id := by
  induction es generalizing mask with
  | nil => simp
  | cons e es ih =>
    rw [foldl_cons, ih]
    cases hgone : gone e with
    | false => simp [hgone]
    | true =>
      by_cases hid : e.id = id
      · simp [hgone, hid, clear]
      · simp [hgone, hid, clear, Function.update_of_ne (Ne.symm hid)]

/-- A loop that leaves the mask alone. -/
theorem foldl_ignore : es.foldl (fun mask e => if gone e then mask else mask) mask = mask := by
  simp

end

/-! ## The methods -/

/-- The mask is right and, if `exact` is asked for, `len` too. -/
def Good (exact : Prop) (n : ℕ) (h : HttpHeader) : Prop := MaskExact h ∧ (exact → Fits n h)

/-- The assertions that may fail then. -/
def Allowed (exact : Prop) (a : Assertion) : Prop := a.aboutMask = false ∧ (exact → a ≠ .len)

variable {exact : Prop} {n : ℕ} {h : HttpHeader}

theorem allowed_argument : Allowed exact .argument := ⟨rfl, fun _ => nofun⟩

section Sweep

variable (gone : HttpHeaderEntry → Bool)
  (onGone onKept : HttpHeaderMask → HdrType → HttpHeaderMask)

/-- What a loop leaves, if no assertion stops it, and none does when `len` is right.
The length `t` is that of the entries before the loop. -/
theorem sweep_yields (es : List (Option HttpHeaderEntry)) {t : ℕ} {p : Progress}
    (hexact : exact → p.len = (t + packedLength es : ℕ) ∧ t + packedLength es < 2 ^ 31) :
    Yields (fun r => r.1 = es.map (Option.filter (fun e => !gone e)) ∧
        r.2.mask = es.reduceOption.foldl
          (fun mask e => if gone e then onGone mask e.id else onKept mask e.id) p.mask ∧
        r.2.deleted = p.deleted + es.reduceOption.countP gone ∧
        (exact → r.2.len = ((t + packedLength r.1 : ℕ) : ℤ) ∧ packedLength r.1 ≤ packedLength es))
      (Allowed exact) (sweep gone onGone onKept es p) := by
  induction es generalizing p t with
  | nil => exact ⟨rfl, rfl, rfl, fun hexact' => ⟨(hexact hexact').1, le_rfl⟩⟩
  | cons e es ih =>
    cases e with
    | none =>
      refine (ih hexact).bind (fun r hr => ?_)
      simpa [Option.filter] using hr
    | some e =>
      rw [packedLength_some] at hexact
      rw [sweep]
      cases hgone : gone e with
      | true =>
        have hdel : Yields (fun p' => p'.mask = p.mask ∧ p'.deleted = p.deleted + 1 ∧
            (exact → p'.len = ((t + packedLength es : ℕ) : ℤ))) (Allowed exact) (delAt e p) := by
          have hrest : exact → toInt (p.len - e.length) = (t + packedLength es : ℕ) := by
            intro hexact'
            obtain ⟨hlen, hlt⟩ := hexact hexact'
            rw [show p.len - e.length = (t + packedLength es : ℕ) by omega, toInt_of_lt (by omega)]
          unfold delAt
          dsimp only
          split
          · exact ⟨rfl, fun hexact' => absurd (hrest hexact') (by omega)⟩
          · exact ⟨rfl, rfl, hrest⟩
        refine hdel.bind (fun p' hp' => ?_)
        refine (ih (t := t) (p := ⟨onGone p'.mask e.id, p'.len, p'.deleted⟩)
          (fun hexact' => ⟨hp'.2.2 hexact', by have := (hexact hexact').2; omega⟩)).bind
          (fun r hr => ?_)
        obtain ⟨hentries, hmask, hdeleted, hlen⟩ := hr
        refine ⟨?_, ?_, ?_, fun hexact' => ?_⟩
        · simp [hentries, Option.filter, hgone]
        · simp [hmask, hgone, hp'.1]
        · rw [hdeleted, hp'.2.1, reduceOption_cons_of_some, countP_cons_of_pos hgone]
          omega
        · obtain ⟨hlen, hle⟩ := hlen hexact'
          exact ⟨by simpa using hlen, by simpa using hle.trans (Nat.le_add_left _ _)⟩
      | false =>
        refine (ih (t := t + e.length) (p := ⟨onKept p.mask e.id, p.len, p.deleted⟩)
          (fun hexact' => ?_)).bind (fun r hr => ?_)
        · obtain ⟨hlen, hlt⟩ := hexact hexact'
          exact ⟨by show p.len = _; omega, by omega⟩
        obtain ⟨hentries, hmask, hdeleted, hlen⟩ := hr
        refine ⟨?_, ?_, ?_, fun hexact' => ⟨?_, by simpa using (hlen hexact').2⟩⟩
        · simp [hentries, Option.filter, hgone]
        · simp [hmask, hgone]
        · rw [hdeleted, reduceOption_cons_of_some, countP_cons_of_neg (by simp [hgone])]
        · rw [(hlen hexact').1, packedLength_some, Nat.add_assoc]

/-- **A loop over the entries of a header.** -/
theorem sweep_good (hfits : exact → Fits n h) (mask : HttpHeaderMask) :
    Yields (fun r => r.1 = h.entries.map (Option.filter (fun e => !gone e)) ∧
        r.2.mask = h.entries.reduceOption.foldl
          (fun mask e => if gone e then onGone mask e.id else onKept mask e.id) mask ∧
        r.2.deleted = h.entries.reduceOption.countP gone ∧ (exact → Fits n (h.swept r.1 r.2)))
      (Allowed exact) (sweep gone onGone onKept h.entries ⟨mask, h.len, 0⟩) := by
  refine (sweep_yields gone onGone onKept h.entries (t := 0) fun hexact => ?_).mono
    (fun r hr => ?_) (fun _ ha => ha)
  · obtain ⟨hlen, hlt⟩ := hfits hexact
    exact ⟨by simpa using hlen, by omega⟩
  · obtain ⟨hentries, hmask, hdeleted, hlen⟩ := hr
    refine ⟨hentries, hmask, by simpa using hdeleted, fun hexact => ?_⟩
    obtain ⟨hlen, hle⟩ := hlen hexact
    have hlt := (hfits hexact).2
    rw [Nat.zero_add] at hlen
    refine ⟨hlen, ?_⟩
    show packedLength r.1 + n < 2 ^ 31
    omega

end Sweep

namespace Good

theorem new (owner : Http.HdrOwner) (hn : n < 2 ^ 31) : Good exact n (.new owner) := by
  refine ⟨fun id _ => ?_, fun _ => ⟨rfl, ?_⟩⟩
  · simp [HttpHeader.new, empty]
  · simpa [HttpHeader.new, packedLength] using hn

/-- Fewer bytes fit as well. -/
theorem mono {m : ℕ} (hgood : Good exact n h) (hmn : m ≤ n) : Good exact m h :=
  ⟨hgood.1, fun hexact => ⟨(hgood.2 hexact).1, by have := (hgood.2 hexact).2; omega⟩⟩

theorem clean (hgood : Good exact n h) : Good exact n h.clean := by
  refine ⟨fun id _ => ?_, fun hexact => ⟨rfl, ?_⟩⟩
  · simp [HttpHeader.clean, empty]
  · have := (hgood.2 hexact).2
    show 0 + n < 2 ^ 31
    omega

theorem compact (hgood : Good exact n h) : Good exact n h.compact := by
  have hlive : h.compact.entries.reduceOption = h.entries.reduceOption := by
    show (h.entries.filter Option.isSome).filterMap id = h.entries.filterMap id
    rw [filterMap_filter]
    refine filterMap_congr fun e _ => ?_
    cases e <;> rfl
  have hlength : packedLength h.compact.entries = packedLength h.entries := by
    rw [packedLength, hlive, packedLength]
  refine ⟨fun id hid => ?_, fun hexact => ?_⟩
  · rw [hlive]
    exact hgood.1 id hid
  · rw [Fits, hlength]
    exact hgood.2 hexact

theorem addEntry {e : HttpHeaderEntry} (hgood : Good exact (e.length + n) h) :
    Yields (Good exact n) (Allowed exact) (h.addEntry e) := by
  unfold HttpHeader.addEntry
  split
  · exact allowed_argument
  · refine ⟨fun id hid => ?_, fun hexact => ?_⟩
    · have hbit : (if e.id = .badHdr then h.mask else h.mask.set e.id) id = true ↔
          h.mask id = true ∨ e.id = id := by
        by_cases heq : e.id = id
        · have hbad : e.id ≠ .badHdr := by
            rintro hbad
            simp [HdrType.registered, ← heq, hbad] at hid
          simp [if_neg hbad, heq, HttpHeaderMask.set]
        · split
          · simp [heq]
          · simp [heq, HttpHeaderMask.set, Function.update_of_ne (Ne.symm heq)]
      rw [hbit, hgood.1 id hid, reduceOption_append]
      simp [or_and_right, exists_or]
    · obtain ⟨hlen, hlt⟩ := hgood.2 hexact
      have hlength := packedLength_concat h.entries e
      refine ⟨?_, ?_⟩
      · rw [hlen, hlength, ← Int.natCast_add, toInt_of_lt (by omega)]
      · show packedLength (h.entries ++ [some e]) + n < 2 ^ 31
        omega

section

variable (hgood : Good exact n h)
include hgood

theorem delByName (name : List UInt8) :
    Yields (fun r => Good exact n r.1) (Allowed exact) (h.delByName name) := by
  refine (sweep_good _ _ _ hgood.2 _).bind (fun r hr => ?_)
  obtain ⟨hentries, hmask, -, hfits⟩ := hr
  refine ⟨fun id _ => ?_, hfits⟩
  show r.2.mask id = true ↔ ∃ e ∈ r.1.reduceOption, e.id = id
  rw [hmask, hentries, reduceOption_map_filter, foldl_set_iff]
  simp [empty]

theorem delById (id : HdrType) :
    Yields (fun r => Good exact n r.1) (Allowed exact) (h.delById id) := by
  unfold HttpHeader.delById
  split
  · exact allowed_argument
  · rename_i hid
    rw [Bool.not_eq_true, Bool.not_eq_false'] at hid
    split
    · exact hgood
    · rename_i hbit
      rw [Bool.not_eq_true, Bool.not_eq_false'] at hbit
      refine (sweep_good _ _ _ hgood.2 _).bind (fun r hr => ?_)
      obtain ⟨hentries, hsame, hdeleted, hfits⟩ := hr
      rw [foldl_ignore] at hsame
      -- the bit says that there is something to delete
      obtain ⟨e, he, heid⟩ := (hgood.1 id hid).mp hbit
      have hpos : 0 < h.entries.reduceOption.countP (fun e => decide (e.id = id)) :=
        countP_pos_iff.mpr ⟨e, he, by simpa using heid⟩
      have hsome : r.2.deleted ≠ 0 := by omega
      simp only [if_neg hsome]
      refine ⟨fun id' hid' => ?_, hfits⟩
      show r.2.mask.clear id id' = true ↔ ∃ e ∈ r.1.reduceOption, e.id = id'
      rw [hentries, reduceOption_map_filter, hsame]
      by_cases heq : id' = id
      · subst heq
        simp [clear]
      · rw [clear, Function.update_of_ne heq, hgood.1 id' hid']
        constructor
        · rintro ⟨e, he, rfl⟩
          exact ⟨e, by simp [he, heq], rfl⟩
        · rintro ⟨e, he, rfl⟩
          exact ⟨e, (mem_filter.mp he).1, rfl⟩

theorem removeConnectionHeaderEntries :
    Yields (fun r => Good exact n r.1) (Allowed exact) h.removeConnectionHeaderEntries := by
  unfold HttpHeader.removeConnectionHeaderEntries
  split
  · exact hgood
  · split
    · exact hgood
    · refine (sweep_good _ _ _ hgood.2 _).bind (fun r hr => ?_)
      obtain ⟨hentries, hsame, hdeleted, hfits⟩ := hr
      rw [foldl_ignore] at hsame
      by_cases hnone : r.2.deleted = 0
      · -- nothing was deleted, so that the mask is still right
        simp only [if_pos hnone]
        refine ⟨fun id hid => ?_, hfits⟩
        rw [hnone, eq_comm, countP_eq_zero] at hdeleted
        show r.2.mask id = true ↔ ∃ e ∈ r.1.reduceOption, e.id = id
        rw [hentries, reduceOption_map_filter, hsame, hgood.1 id hid,
          filter_eq_self.mpr (fun e he => by simpa using hdeleted e he)]
      · simp only [if_neg hnone]
        refine ⟨fun id _ => ?_, hfits⟩
        have hset := foldl_set_iff (fun _ => false) r.1.reduceOption .empty id
        simp only [Bool.false_eq_true, if_false, Bool.not_false, filter_true,
          empty, false_or] at hset
        exact hset

theorem removeHopByHopEntries :
    Yields (fun r => Good exact n r.1) (Allowed exact) h.removeHopByHopEntries := by
  refine hgood.removeConnectionHeaderEntries.bind (fun r hgood => ?_)
  obtain ⟨h, returned⟩ := r
  cases returned with
  | false => exact hgood
  | true =>
    refine (sweep_good _ _ _ hgood.2 _).bind (fun r hr => ?_)
    obtain ⟨hentries, hmask, -, hfits⟩ := hr
    refine ⟨fun id hid => ?_, hfits⟩
    show r.2.mask id = true ↔ ∃ e ∈ r.1.reduceOption, e.id = id
    rw [hentries, reduceOption_map_filter, hmask, foldl_clear_iff, hgood.1 id hid]
    constructor
    · rintro ⟨⟨e, he, rfl⟩, hclear⟩
      refine ⟨e, mem_filter.mpr ⟨he, ?_⟩, rfl⟩
      cases hhop : (lookup e.id).hopbyhop with
      | true => exact absurd rfl (hclear e he hhop)
      | false => rfl
    · rintro ⟨e, he, rfl⟩
      obtain ⟨he, hkept⟩ := mem_filter.mp he
      refine ⟨⟨e, he, rfl⟩, fun e' _ hhop heq => ?_⟩
      -- whether a field is for one hop only depends on its id
      rw [heq] at hhop
      simp [hhop] at hkept

end

/-! ### Methods that are made of others -/

open HttpHeaderEntry

/-- The length of the entries that a loop adds. -/
theorem addEntries {es : List HttpHeaderEntry} (hgood : Good exact ((es.map length).sum + n) h) :
    Yields (Good exact n) (Allowed exact) (es.foldlM HttpHeader.addEntry h) := by
  have hloop := yields_foldlM (E := Allowed exact) (I := fun (rest : List HttpHeaderEntry) h =>
      Good exact ((rest.map length).sum + n) h)
    (fun e rest h hgood => addEntry (by simpa [Nat.add_assoc] using hgood)) es hgood
  simpa using hloop

theorem append (src : HttpHeader) (hgood : Good exact
      (((src.entries.reduceOption.map clone).map length).sum + n) h) :
    Yields (Good exact n) (Allowed exact) (h.append src) := by
  have hadd := addEntries hgood
  rwa [foldlM_map] at hadd

/-- What `update` adds. -/
def freshEntries (fresh : HttpHeader) : List HttpHeaderEntry :=
  (fresh.entries.reduceOption.filter (fun e => !HttpHeader.skipUpdateHeader e.id)).map
    HttpHeaderEntry.clone

theorem map_fst {α : Type} {r : Except Assertion (HttpHeader × α)}
    (hr : Yields (fun r => Good exact n r.1) (Allowed exact) r) :
    Yields (Good exact n) (Allowed exact) (r.map Prod.fst) := by
  cases r <;> exact hr

theorem delFresh (hgood : Good exact n h) (e : HttpHeaderEntry) :
    Yields (Good exact n) (Allowed exact) (h.delFresh e) := by
  unfold HttpHeader.delFresh
  split
  · exact hgood
  · split
    · exact map_fst (hgood.delById e.id)
    · exact map_fst (hgood.delByName e.name)

/-- The second loop of `update` adds the entries that are not skipped. -/
theorem foldlM_addFresh (fresh h : HttpHeader) : fresh.entries.reduceOption.foldlM addFresh h =
      (freshEntries fresh).foldlM HttpHeader.addEntry h := by
  rw [freshEntries, foldlM_map, foldlM_filter]
  congr
  funext h e
  unfold addFresh
  cases skipUpdateHeader e.id <;> rfl

theorem update (fresh : HttpHeader)
    (hgood : Good exact (((freshEntries fresh).map length).sum + n) h) :
    Yields (Good exact n) (Allowed exact) (h.update fresh) := by
  refine (yields_foldlM (I := fun _ => Good exact _) (fun e _ _ hgood => hgood.delFresh e) _
    hgood).bind (fun h hgood => ?_)
  rw [foldlM_addFresh]
  exact addEntries hgood

variable {id : HdrType}

theorem putTyped (type : HdrFieldType) {text : List UInt8}
    (hgood : Good exact ((HttpHeaderEntry.new id [] text).length + n) h) :
    Yields (Good exact n) (Allowed exact) (h.putTyped type id text) := by
  unfold HttpHeader.putTyped
  split
  · exact allowed_argument
  · exact addEntry hgood

theorem putPacked {packed : List UInt8}
    (hgood : Good exact ((HttpHeaderEntry.new id [] packed).length + n) h) :
    Yields (Good exact n) (Allowed exact) (putPacked id h packed) :=
  (hgood.delById id).bind (fun _ hgood => addEntry hgood)

theorem putInt64 {number : ℤ} (hgood : Good exact ((HttpHeaderEntry.new id []
      (Http.HttpHeader.xint64toa number.toNat)).length + n) h) :
    Yields (Good exact n) (Allowed exact) (h.putInt64 id number) := by
  unfold HttpHeader.putInt64
  split
  · exact allowed_argument
  · exact hgood.putTyped .ftInt64

/-! ### Parsing -/

/-- The entry that `parse` puts in the place of the `Content-Length` fields. -/
def sanitized (clen : Http.ContentLengthInterpreter) : HttpHeaderEntry :=
  .new .contentLength [] (Http.HttpHeader.xint64toa clen.value.toNat)

variable {clen : Http.ContentLengthInterpreter}

theorem frame (hgood : Good exact ((sanitized clen).length + n) h) :
    Yields (fun r => Good exact n r.1) (Allowed exact) (h.frame clen) := by
  have hmono : ∀ {h}, Good exact ((sanitized clen).length + n) h → Good exact n h :=
    fun hgood => hgood.mono (Nat.le_add_left _ _)
  unfold HttpHeader.frame
  split
  · exact (hgood.delById _).bind (fun _ hgood => (hgood.delById _).bind (fun _ => hmono))
  · split
    · split
      · exact hmono hgood
      · refine (hgood.delById _).bind (fun r hgood => ?_)
        dsimp only
        split
        · exact hmono hgood
        · split
          · exact (hgood.delById _).bind (fun _ => hmono)
          · exact hmono hgood
    · split
      · exact (hgood.delById _).bind (fun _ => hmono)
      · split
        · refine (hgood.delById _).bind (fun r hgood => ?_)
          dsimp only
          split
          · exact hgood.putInt64.bind (fun _ hgood => hgood)
          · exact hmono hgood
        · exact hmono hgood

/-- The entries that reading a block adds, with the one that may replace some. -/
def readEntries : List HttpHeaderEntry × HttpHeader.Reading → List HttpHeaderEntry
  | (es, .done clen) => es ++ [sanitized clen]
  | (es, _) => es

theorem parse {relaxed : Bool} {block : List UInt8}
    (hgood : Good exact (((readEntries (readBlock relaxed h.owner block clen)).map
      length).sum + n) h) :
    Yields (fun r => Good exact n r.1) (Allowed exact) (h.parse relaxed block clen) := by
  unfold HttpHeader.parse
  generalize readBlock relaxed h.owner block clen = read at hgood
  obtain ⟨es, reading⟩ := read
  cases reading with
  | done clen =>
    rw [readEntries, map_append, sum_append, Nat.add_assoc] at hgood
    refine (addEntries hgood).bind (fun h hgood => ?_)
    exact (frame (by simpa using hgood)).bind (fun _ hgood => hgood)
  | rejected => exact (addEntries hgood).bind (fun _ hgood => hgood.clean)
  | asserted => exact (addEntries hgood).bind (fun _ _ => ⟨rfl, fun _ => nofun⟩)

/-! ### Searches -/

variable (hgood : Good exact n h)
include hgood

/-- A search for an id that is in the mask finds an entry. -/
theorem search {es : List HttpHeaderEntry} (hes : h.entries.reduceOption ⊆ es) :
    Yields (fun _ => True) (Allowed exact)
      (if !id.registered || (lookup id).list then .error .argument
      else if !h.mask id then .ok none
      else match es.find? (fun e => e.id = id) with
        | some e => .ok (some e)
        | none => .error .found) := by
  split
  · exact allowed_argument
  · split
    · trivial
    · rename_i hbit
      split
      · trivial
      · rename_i hnone
        obtain ⟨e, he, heid⟩ := (hgood.1 id (by simp_all)).mp (by simpa using hbit)
        simpa [heid] using find?_eq_none.mp hnone e (hes he)

theorem findEntry (id : HdrType) : Yields (fun _ => True) (Allowed exact) (h.findEntry id) :=
  hgood.search (List.Subset.refl _)

theorem findLastEntry (id : HdrType) :
    Yields (fun _ => True) (Allowed exact) (h.findLastEntry id) :=
  hgood.search fun _ => mem_reverse.mpr

end Good

/-! ### Replacing a value in place -/

/-- The loop of `updateOrAddStr` leaves an entry for every id that had one. -/
theorem syncEntries_ids (id : HdrType) (newValue : List UInt8) (es : List (Option HttpHeaderEntry))
    (found : Bool) (id' : HdrType) :
    (∃ e ∈ (syncEntries id newValue found es).1.reduceOption, e.id = id') ↔
      (∃ e ∈ es.reduceOption, e.id = id') ∧ (found = true → id' ≠ id) := by
  induction es generalizing found with
  | nil => simp [syncEntries]
  | cons e es ih =>
    cases e with
    | none => simpa [syncEntries] using ih found
    | some e =>
      rw [reduceOption_cons_of_some e es, exists_mem_cons_iff]
      by_cases hid : e.id = id
      · cases found with
        | true =>
          -- a second entry of the id is deleted
          rw [syncEntries, if_neg (not_not_intro hid), if_pos rfl]
          rw [reduceOption_cons_of_none, ih true]
          grind
        | false =>
          rw [syncEntries, if_neg (not_not_intro hid), if_neg nofun]
          rw [reduceOption_cons_of_some, exists_mem_cons_iff, ih true]
          grind
      · rw [syncEntries, if_pos hid]
        rw [reduceOption_cons_of_some, exists_mem_cons_iff, ih found]
        grind

theorem syncEntries_found (id : HdrType) (newValue : List UInt8)
    (es : List (Option HttpHeaderEntry)) (found : Bool) :
    (syncEntries id newValue found es).2 = true ↔
      found = true ∨ ∃ e ∈ es.reduceOption, e.id = id := by
  induction es generalizing found with
  | nil => simp [syncEntries]
  | cons e es ih =>
    cases e with
    | none => simpa [syncEntries] using ih found
    | some e =>
      by_cases hid : e.id = id
      · cases found with
        | true => simp [syncEntries, hid, ih]
        | false => simp [syncEntries, hid, ih]
      · simp [syncEntries, hid, ih]

/-- The live entries with an id. -/
def sameId (id : HdrType) (es : List (Option HttpHeaderEntry)) : List HttpHeaderEntry :=
  es.reduceOption.filter (·.id = id)

/-- The new value takes as much room as the entries that it replaces: there is one entry,
which has the value already, or the value is as long as the first one and the repeated
entries together. -/
def SameLength (newValue : List UInt8) : List HttpHeaderEntry → Prop
  | [] => True
  | e :: repeated =>
    if cString newValue = cString e.value then repeated = []
    else newValue.length = e.value.length + (repeated.map HttpHeaderEntry.length).sum

instance (newValue : List UInt8) (es : List HttpHeaderEntry) : Decidable (SameLength newValue es) :=
  match es with
  | [] => inferInstanceAs (Decidable True)
  | e :: repeated => inferInstanceAs (Decidable (if cString newValue = cString e.value
      then repeated = [] else
        newValue.length = e.value.length + (repeated.map HttpHeaderEntry.length).sum))

/-- Deleting repeated entries. -/
theorem packedLength_syncEntries_true (id : HdrType) (newValue : List UInt8)
    (es : List (Option HttpHeaderEntry)) :
    packedLength (syncEntries id newValue true es).1 +
      ((sameId id es).map HttpHeaderEntry.length).sum = packedLength es := by
  induction es with
  | nil => rfl
  | cons e es ih =>
    cases e with
    | none => simpa [syncEntries, sameId] using ih
    | some e =>
      by_cases hid : e.id = id
      · simp [syncEntries, sameId, hid] at ih ⊢
        omega
      · simp [syncEntries, sameId, hid] at ih ⊢
        omega

/-- **When the loop of `updateOrAddStr` leaves the length of the header as it was.** -/
theorem packedLength_syncEntries (id : HdrType) (newValue : List UInt8)
    (es : List (Option HttpHeaderEntry)) :
    packedLength (syncEntries id newValue false es).1 = packedLength es ↔
      SameLength newValue (sameId id es) := by
  induction es with
  | nil => exact iff_of_true rfl trivial
  | cons e es ih =>
    cases e with
    | none => simpa [syncEntries, sameId] using ih
    | some e =>
      by_cases hid : e.id = id
      · have hrest := packedLength_syncEntries_true id newValue es
        have hsame : sameId id (some e :: es) = e :: sameId id es := by simp [sameId, hid]
        rw [hsame, SameLength, packedLength_some]
        simp only [syncEntries, hid, ne_eq, not_true, if_false, Bool.false_eq_true,
          packedLength_some, HttpHeaderEntry.length, ite_not]
        split
        · -- an entry is not empty, so that the repeated ones have no length iff there are none
          have hnil : ((sameId id es).map HttpHeaderEntry.length).sum = 0 ↔ sameId id es = [] := by
            cases sameId id es with
            | nil => simp
            | cons e' _ => simp [HttpHeaderEntry.length]
          rw [← hnil]
          omega
        · omega
      · have hsame : sameId id (some e :: es) = sameId id es := by simp [sameId, hid]
        rw [hsame, ← ih]
        simp [syncEntries, hid]

/-- What a call of `updateOrAddStr` does for an id that is there. -/
theorem updateOrAddStr_of_mask {id : HdrType} {newValue : List UInt8} (hmask : MaskExact h)
    (hid : id.registered = true) (htype : (lookup id).type = .ftStr)
    (hsize : newValue.length < sizeMax) (hbit : h.mask id = true) :
    h.updateOrAddStr id newValue =
      .ok ({ h with entries := (syncEntries id newValue false h.entries).1 }, true) := by
  have hfound : (syncEntries id newValue false h.entries).2 = true :=
    (syncEntries_found id newValue h.entries false).mpr (.inr ((hmask id hid).mp hbit))
  simp [HttpHeader.updateOrAddStr, hid, htype, hsize, hbit, hfound]

/-- `updateOrAddStr`, if replacing a value does not change the length. -/
theorem Good.updateOrAddStr {id : HdrType} {newValue : List UInt8}
    (hgood : Good exact ((HttpHeaderEntry.new id [] newValue).length + n) h)
    (hsync : exact → id.registered = true → (lookup id).type = .ftStr →
      newValue.length < sizeMax → SameLength newValue (sameId id h.entries)) :
    Yields (fun r => Good exact n r.1) (Allowed exact) (h.updateOrAddStr id newValue) := by
  have hmono : Good exact n h := hgood.mono (Nat.le_add_left _ _)
  by_cases hargs : id.registered = true ∧ (lookup id).type = .ftStr
  swap
  · rw [HttpHeader.updateOrAddStr, if_pos (by simp; grind)]
    exact allowed_argument
  by_cases hsize : newValue.length < sizeMax
  swap
  · rw [HttpHeader.updateOrAddStr, if_neg (by simp [hargs]), if_pos (by omega)]
    exact hmono
  cases hbit : h.mask id with
  | false =>
    simp only [HttpHeader.updateOrAddStr, hargs, hbit, Nat.not_le.mpr hsize]
    exact (Good.addEntry hgood).bind (fun _ hgood => hgood)
  | true =>
    rw [updateOrAddStr_of_mask hgood.1 hargs.1 hargs.2 hsize hbit]
    refine ⟨fun id' hid' => ?_, fun hexact => ?_⟩
    · rw [syncEntries_ids, hgood.1 id' hid']
      simp
    · have hlength := (packedLength_syncEntries id newValue h.entries).mpr
        (hsync hexact hargs.1 hargs.2 hsize)
      obtain ⟨hlen, hlt⟩ := hmono.2 hexact
      rw [Fits, hlength]
      exact ⟨hlen, hlt⟩

/-! ## Histories -/

/-- The entries that a call may add. -/
def Call.adds (owner : Http.HdrOwner) : Call → List HttpHeaderEntry
  | .addEntry e => [e]
  | .putInt id number => [.new id [] (Http.HttpHeader.xint64toa number.toNat)]
  | .putInt64 id number => [.new id [] (Http.HttpHeader.xint64toa number.toNat)]
  | .putTime formatRfc1123 id htime => [.new id [] (formatRfc1123 htime)]
  | .putStr id str => [.new id [] str]
  | .putAuth authScheme realm => [.new .wwwAuthenticate [] (HttpHeader.authText authScheme realm)]
  | .putCc packed => [.new .cacheControl [] packed]
  | .putContRange packed => [.new .contentRange [] packed]
  | .putRange packed => [.new .range [] packed]
  | .putSc packed => [.new .surrogateControl [] packed]
  | .putExt name value => [.new .other (cString name) value]
  | .update fresh => Good.freshEntries fresh
  | .append src => src.entries.reduceOption.map HttpHeaderEntry.clone
  | .updateOrAddStr id newValue => [.new id [] newValue]
  | .parse relaxed block clen => Good.readEntries (HttpHeader.readBlock relaxed owner block clen)
  | _ => []

/-- The length of what a call may add. -/
def Call.addedLength (owner : Http.HdrOwner) (call : Call) : ℕ :=
  ((call.adds owner).map HttpHeaderEntry.length).sum

/-- **A call of `updateOrAddStr` replaces what is there by as much**, if it does replace
anything. -/
def KeepsLength (h : HttpHeader) : Call → Prop
  | .updateOrAddStr id newValue =>
    id.registered = true → (lookup id).type = .ftStr → newValue.length < sizeMax →
      SameLength newValue (sameId id h.entries)
  | _ => True

/-- **One call.** -/
theorem Good.call {call : Call} (hgood : Good exact (call.addedLength h.owner) h)
    (hkeeps : exact → KeepsLength h call) : Yields (Good exact 0) (Allowed exact) (call.run h) := by
  -- what a call adds is what its lemma asks for, up to the sum of a list
  cases call with
  | addEntry e => exact Good.addEntry hgood
  | putInt id number =>
    show Yields _ _ (if number < 0 then _ else _)
    split
    · exact allowed_argument
    · exact Good.putTyped .ftInt hgood
  | putInt64 id number => exact Good.putInt64 hgood
  | putTime formatRfc1123 id htime =>
    show Yields _ _ (if htime < 0 then _ else _)
    split
    · exact allowed_argument
    · exact Good.putTyped .ftDate1123 hgood
  | putStr id str => exact Good.putTyped .ftStr hgood
  | putAuth authScheme realm => exact Good.putTyped .ftStr hgood
  | putCc packed => exact Good.putPacked hgood
  | putContRange packed => exact Good.putPacked hgood
  | putRange packed => exact Good.putPacked hgood
  | putSc packed => exact Good.putPacked hgood
  | putExt name value => exact Good.addEntry hgood
  | delById id => exact Good.map_fst (hgood.delById id)
  | delByName name => exact Good.map_fst (hgood.delByName name)
  | update fresh => exact Good.update fresh hgood
  | append src => exact Good.append src hgood
  | updateOrAddStr id newValue => exact Good.map_fst (Good.updateOrAddStr hgood hkeeps)
  | removeHopByHopEntries => exact Good.map_fst hgood.removeHopByHopEntries
  | removeConnectionHeaderEntries => exact Good.map_fst hgood.removeConnectionHeaderEntries
  | compact => exact hgood.compact
  | clean => exact hgood.clean
  | parse relaxed block clen => exact Good.map_fst (Good.parse hgood)
  | findEntry id => exact (hgood.findEntry id).bind (fun _ _ => hgood)
  | findLastEntry id => exact (hgood.findLastEntry id).bind (fun _ _ => hgood)

theorem runCalls_append (owner : Http.HdrOwner) (before : List Call) (call : Call) :
    runCalls owner (before ++ [call]) = runCalls owner before >>= fun h => call.run h := by
  rw [runCalls, foldlM_append]
  congr 1
  funext h
  rw [foldlM_cons]
  cases call.run h <;> rfl

/-- The mask is right after every history. -/
theorem mask_run (owner : Http.HdrOwner) (calls : List Call) :
    Yields MaskExact (fun a => a.aboutMask = false) (runCalls owner calls) := by
  have hnew : Good False 0 (new owner) := Good.new owner (by decide)
  have hrun := yields_foldlM (I := fun _ => Good False 0) (E := Allowed False)
    (f := Call.run) (fun _ _ _ hgood => Good.call ⟨hgood.1, False.elim⟩ False.elim) calls hnew
  exact hrun.mono (fun _ hgood => hgood.1) (fun _ ha => ha.1)

/-- The lengths of a history fit an `int`: those of the headers that it reaches, with
what the next call may add. -/
def Small (owner : Http.HdrOwner) (calls : List Call) : Prop :=
  ∀ before call, before ++ [call] <+: calls → ∀ h, runCalls owner before = .ok h →
    packedLength h.entries + call.addedLength h.owner < 2 ^ 31

/-- Whether `len` is right at the end of a history, and the assertion about it holds. -/
def LenExact (owner : Http.HdrOwner) (calls : List Call) : Prop :=
  Yields (fun h : HttpHeader => h.len = packedLength h.entries) (fun a => a ≠ .len)
    (runCalls owner calls)

/-- `len` is right as long as no value is replaced by one of another length. -/
theorem lenExact_of_keepsLength {owner : Http.HdrOwner} {calls : List Call}
    (hsmall : Small owner calls)
    (hkeeps : ∀ before call, before ++ [call] <+: calls → ∀ h, runCalls owner before = .ok h →
      KeepsLength h call) : LenExact owner calls := by
  induction calls using reverseRecOn with
  | nil => exact rfl
  | append_singleton before call ih =>
    have hprefix : before <+: before ++ [call] := prefix_append _ _
    have hbefore : LenExact owner before :=
      ih (fun b c hbc => hsmall b c (hbc.trans hprefix))
        (fun b c hbc => hkeeps b c (hbc.trans hprefix))
    have hmask := mask_run owner before
    rw [LenExact, runCalls_append]
    cases hrun : runCalls owner before with
    | error a =>
      rw [LenExact, hrun] at hbefore
      exact hbefore
    | ok h =>
      rw [LenExact, hrun] at hbefore
      rw [hrun] at hmask
      have hgood : Good True (call.addedLength h.owner) h :=
        ⟨hmask, fun _ => ⟨hbefore, hsmall before call (prefix_refl _) h hrun⟩⟩
      refine (Good.call hgood (fun _ => hkeeps before call (prefix_refl _) h hrun)).mono ?_ ?_
      · exact fun h' hgood' => (hgood'.2 trivial).1
      · exact fun a ha => ha.2 trivial

/-- **What a header knows about its entries**: after every history of calls, the bit
of a known id is set iff there is an entry with it, and no assertion fails that
relies on it. While the lengths fit an `int`, `len` is right throughout the history
and the assertion about it holds, iff every `updateOrAddStr` has a value that is as long
as what it replaces. -/
theorem header_invariant (owner : Http.HdrOwner) (calls : List Call) :
    Yields MaskExact (fun a => a.aboutMask = false) (runCalls owner calls) ∧
    (Small owner calls →
      ((∀ before, before <+: calls → LenExact owner before) ↔
        ∀ before call, before ++ [call] <+: calls → ∀ h, runCalls owner before = .ok h →
          KeepsLength h call)) := by
  refine ⟨mask_run owner calls, fun hsmall => ⟨fun hexact before call hcall h hrun => ?_,
    fun hkeeps before hbefore => ?_⟩⟩
  · cases call with
    | updateOrAddStr id newValue =>
      intro hid htype hsize
      have hmask := mask_run owner before
      rw [hrun, yields_ok] at hmask
      cases hbit : h.mask id with
      | false =>
        have hnone : sameId id h.entries = [] := by
          refine filter_eq_nil_iff.mpr fun e he hidd => ?_
          have := (hmask id hid).mpr ⟨e, he, of_decide_eq_true hidd⟩
          exact absurd (hbit.symm.trans this) (by decide)
        rw [hnone]
        trivial
      | true =>
        have hnext : runCalls owner (before ++ [.updateOrAddStr id newValue]) =
            .ok { h with entries := (syncEntries id newValue false h.entries).1 } := by
          rw [runCalls_append, hrun]
          show (h.updateOrAddStr id newValue).map Prod.fst = _
          rw [updateOrAddStr_of_mask hmask hid htype hsize hbit]
          rfl
        have hlen := hexact before ((prefix_append _ _).trans hcall)
        have hlen' := hexact _ hcall
        rw [LenExact, hrun, yields_ok] at hlen
        rw [LenExact, hnext, yields_ok] at hlen'
        -- `len` is as it was, and right before and after
        refine (packedLength_syncEntries id newValue h.entries).mp ?_
        exact_mod_cast hlen'.symm.trans hlen
    | _ => trivial
  · exact lenExact_of_keepsLength (fun b c hbc => hsmall b c (hbc.trans hbefore))
      (fun b c hbc => hkeeps b c (hbc.trans hbefore))

/-- A history that replaces a value by one of its length, then two fields by one that is as
long, and deletes the result. -/
def replaceTwice : List Call :=
  [.putStr .via [0x61], .updateOrAddStr .via [0x62], .putStr .via [0x63],
    .updateOrAddStr .via (replicate 9 0x64), .delById .via]

theorem header_invariant_replaceTwice :
    Small .hoReply replaceTwice ∧ LenExact .hoReply replaceTwice := by
  have hcases : ∀ before call, before ++ [call] <+: replaceTwice →
      ∃ i < 5, before = replaceTwice.take i ∧ replaceTwice[i]? = some call := by
    intro before call hcall
    have hlen := hcall.length_le
    rw [length_append] at hlen
    refine ⟨before.length, hlen, prefix_iff_eq_take.mp ((prefix_append _ _).trans hcall), ?_⟩
    obtain ⟨rest, hrest⟩ := hcall
    simp [← hrest]
  have hsmall : Small .hoReply replaceTwice := by
    intro before call hcall h hrun
    obtain ⟨i, hi, rfl, hget⟩ := hcases before call hcall
    interval_cases i <;> cases hget <;> cases hrun <;> decide +kernel
  refine ⟨hsmall, ((header_invariant .hoReply _).2 hsmall).mpr ?_ _ (prefix_refl _)⟩
  intro before call hcall h hrun
  obtain ⟨i, hi, rfl, hget⟩ := hcases before call hcall
  interval_cases i <;> cases hget <;> cases hrun
  all_goals first
    | trivial
    | exact fun _ _ _ => by decide +kernel

/-- **A value that is replaced by a longer one**: `len` is less than the length of the
header, and deleting the field fails the assertion. -/
theorem updateOrAddStr_leaves_len :
    (∃ h, runCalls .hoReply [.putStr .via [0x61], .updateOrAddStr .via (replicate 20 0x62)] =
        .ok h ∧ h.len = 8 ∧ packedLength h.entries = 27) ∧
      runCalls .hoReply [.putStr .via [0x61], .updateOrAddStr .via (replicate 20 0x62),
        .delById .via] = .error .len :=
  ⟨⟨_, rfl, by decide +kernel, by decide +kernel⟩, rfl⟩

end HeaderStorage
