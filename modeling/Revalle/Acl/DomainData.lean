import Revalle.Acl.SplayInserter
import Revalle.Data.Ascii

/-!
# Domain name access lists

`matchDomainName` compares a host with a configured value from the ends of the
two strings, and says that they are equal when the value contains the host. As
it is used to search a tree, it has to be an order as well. It is: read from
the end, with the dot as the least of all characters, names are in lexical
order, and the names that a value contains stand side by side.

So the values are intervals, of which two either are disjoint or contain each
other, and the access list is the linear scan that it is meant to be.
-/

namespace Acl

open Ascii List

/-- A C string, without the terminating zero. -/
abbrev CString : Type := List UInt8

/-- The character `'.'`. -/
def dot : UInt8 := 0x2e

/-- The character `'*'`. -/
def star : UInt8 := 0x2a

/-! ## Comparing domain names -/

structure MatchDomainNameFlags where
  mdnHonorWildcards : Bool := false
  mdnRejectSubsubDomains : Bool := false

/-- The loop of `matchDomainName`, on what is left of the two strings, read
from their ends. `next` is the character of the host that was read before. -/
def matchEnds (flags : MatchDomainNameFlags) (hostIncludesSubdomains : Bool) :
    (next : UInt8) → (h d : CString) → ℤ
  | next, a :: h, b :: d =>
    if tolower a = tolower b then
      match h, d with
      | [], [] => 0
      | [], c :: d => if d = [] ∧ c = dot then 0 else -1
      | _ :: _, [] =>
        if b = dot then
          if flags.mdnRejectSubsubDomains then
            if h.contains dot then 1 else if hostIncludesSubdomains then 1 else 0
          else
            0
        else
          1
      | c :: h, e :: d => matchEnds flags hostIncludesSubdomains a (c :: h) (e :: d)
    else if flags.mdnHonorWildcards ∧ a = star ∧ next = dot then
      0
    -- "x-foo.com" must be greater than ".foo.com" even though '-' is less than '.'
    else if b = dot then
      1
    else if a = dot then
      -1
    else
      (tolower a).toNat - (tolower b).toNat
  | _, _, _ => 0

/-- The host without its leading dots. -/
def stripDots (h : CString) : CString := h.dropWhile (· = dot)

/-- `matchDomainName`. -/
def matchDomainName (h d : CString) (flags : MatchDomainNameFlags := {}) : ℤ :=
  let hostIncludesSubdomains := h.head? = some dot
  let h := stripDots h
  if h = [] then
    -1
  else if d = [] then
    1
  else
    matchEnds flags hostIncludesSubdomains 0 h.reverse d.reverse

/-! ## The access list -/

/-- A configured value: a domain name, or one with a dot before it that stands
for all of its subdomains, too. -/
structure DomainValue where
  dotted : Bool
  name : CString
  name_ne_nil : name ≠ []
  head_ne_dot : name.head? ≠ some dot

/-- The string of the value. -/
def DomainValue.text (v : DomainValue) : CString := if v.dotted then dot :: v.name else v.name

/-- `Acl::SplayInserter<char*>::Compare`. -/
def domainCompare (a b : CString) : ℤ :=
  if matchDomainName b a ≠ 0 then matchDomainName a b else 0

/-- `Acl::SplayInserter<char*>::IsSubset`. -/
def domainIsSubset (a b : CString) : Bool :=
  if a.head? = some dot ∧ b.head? = some dot then
    b.length ≤ a.length
  else if a.head? ≠ some dot ∧ b.head? ≠ some dot then
    true
  else
    b.head? = some dot

/-- `Acl::SplayInserter<char*>`, whose `MakeCombinedValue` only fails. -/
def domainInserter : SplayInserter DomainValue where
  compare a b := domainCompare a.text b.text
  isSubset a b := domainIsSubset a.text b.text
  makeCombinedValue _ _ := none

/-- `ACLDomainData::match`; the search reshapes the tree. -/
def DomainData.match (domains : Splay DomainValue) (host : CString) : Splay DomainValue × Bool :=
  let (domains, result) := domains.find fun d => matchDomainName host d.text
  (domains, result.isSome)

/-- The access list after values were merged into it and hosts looked up. -/
def DomainData.after (events : List (Event DomainValue CString)) : Option (Splay DomainValue) :=
  Acl.after domainInserter (fun host d => matchDomainName host d.text) events

/-! ## Names in the order of the tree -/

/-- How a character counts in the order: a dot before everything else, and
letters without their case. -/
def key (c : UInt8) : ℕ := if c = dot then 0 else (tolower c).toNat + 1

theorem tolower_eq_dot {c : UInt8} : tolower c = dot ↔ c = dot := by
  unfold tolower
  split
  · next h =>
      simp only [isupper, Bool.and_eq_true, decide_eq_true_eq, UInt8.le_iff_toNat_le] at h
      simp only [dot, ← UInt8.toNat_inj, UInt8.toNat_add] at h ⊢
      simp at h ⊢
      omega
  · exact Iff.rfl

theorem key_eq_zero {c : UInt8} : key c = 0 ↔ c = dot := by
  unfold key
  split
  · next h => exact iff_of_true rfl h
  · next h => exact iff_of_false (by omega) h

theorem key_inj {a b : UInt8} : key a = key b ↔ tolower a = tolower b := by
  unfold key
  split
  · next ha =>
      split
      · next hb => simp [ha, hb]
      · next hb =>
          refine iff_of_false (by omega) fun h => hb ?_
          rw [ha] at h
          exact tolower_eq_dot.mp (h.symm.trans (tolower_eq_dot.mpr rfl))
  · next ha =>
      split
      · next hb =>
          refine iff_of_false (by omega) fun h => ha ?_
          rw [hb] at h
          exact tolower_eq_dot.mp (h.trans (tolower_eq_dot.mpr rfl))
      · rw [Nat.add_right_cancel_iff, UInt8.toNat_inj]

/-- A name, from its end on, as the order sees it. -/
def keys (s : CString) : List ℕ := (s.map key).reverse

variable (sub : Bool) (h : CString) (v : DomainValue)

/-- Where different characters stand first, they decide. -/
theorem matchEnds_of_ne {a b : UInt8} (next : UInt8) (h d : CString) (hne : tolower a ≠ tolower b) :
    (matchEnds {} sub next (a :: h) (b :: d) < 0 ↔ key a < key b) ∧
      (0 < matchEnds {} sub next (a :: h) (b :: d) ↔ key b < key a) := by
  have hkey : key a ≠ key b := fun h => hne (key_inj.mp h)
  unfold matchEnds
  rw [if_neg hne, if_neg (by simp)]
  unfold key at *
  by_cases hb : b = dot
  · grind
  · by_cases ha : a = dot
    · grind
    · simp only [if_neg ha, if_neg hb] at hkey ⊢
      omega

/-- A value without a dot is compared as a whole. -/
theorem matchEnds_plain (next : UInt8) {h d : CString} (hh : h ≠ []) (hd : d ≠ [])
    (hlast : d.getLast? ≠ some dot) : (matchEnds {} sub next h d < 0 ↔ h.map key < d.map key) ∧
      (0 < matchEnds {} sub next h d ↔ d.map key < h.map key) := by
  induction h generalizing next d with
  | nil => exact absurd rfl hh
  | cons a h ih =>
    obtain ⟨b, d, rfl⟩ := exists_cons_of_ne_nil hd
    simp only [map_cons, cons_lt_cons_iff]
    by_cases hab : tolower a = tolower b
    · have hkey := key_inj.mpr hab
      rw [hkey]
      simp only [lt_irrefl, true_and, false_or]
      unfold matchEnds
      rw [if_pos hab]
      cases h with
      | nil =>
        cases d with
        | nil => simp
        | cons c d =>
          have hne : ¬ (d = [] ∧ c = dot) := by
            rintro ⟨rfl, rfl⟩
            exact hlast rfl
          simp [hne]
      | cons c h =>
        cases d with
        | nil =>
          have hne : b ≠ dot := by
            rintro rfl
            exact hlast rfl
          simp [hne]
        | cons e d =>
          refine ih a (by simp) (by simp) ?_
          rwa [getLast?_cons_cons] at hlast
    · obtain ⟨hneg, hpos⟩ := matchEnds_of_ne sub next h d hab
      have hkey : key a ≠ key b := fun h => hab (key_inj.mp h)
      rw [hneg, hpos]
      simp [hkey, hkey.symm]

/-- A value with a dot contains its name and what has the whole value at its
end; anything else is compared with the name. -/
theorem matchEnds_dotted (next : UInt8) {h d : CString} (hh : h ≠ []) :
    (matchEnds {} sub next h (d ++ [dot]) < 0 ↔ h.map key < d.map key) ∧
      (matchEnds {} sub next h (d ++ [dot]) = 0 ↔
        h.map key = d.map key ∨ d.map key ++ [0] <+: h.map key) := by
  have hdot : key dot = 0 := key_eq_zero.mpr rfl
  induction d generalizing next h with
  | nil =>
    obtain ⟨a, h, rfl⟩ := exists_cons_of_ne_nil hh
    simp only [nil_append, map_cons, map_nil]
    by_cases ha : tolower a = tolower dot
    · have hkey := key_inj.mpr ha
      rw [hdot] at hkey
      unfold matchEnds
      rw [if_pos ha]
      cases h with
      | nil => simp [hkey]
      | cons c h => simp [hkey]
    · obtain ⟨hneg, hpos⟩ := matchEnds_of_ne sub next h [] ha
      have hkey : key a ≠ 0 := fun h => ha (key_inj.mp (h.trans hdot.symm))
      refine ⟨iff_of_false (by omega) (by simp), iff_of_false (by omega) ?_⟩
      simp [hkey.symm]
  | cons b d ih =>
    obtain ⟨a, h, rfl⟩ := exists_cons_of_ne_nil hh
    simp only [cons_append, map_cons, cons_lt_cons_iff]
    by_cases hab : tolower a = tolower b
    · have hkey := key_inj.mpr hab
      rw [hkey]
      simp only [lt_irrefl, true_and, false_or, cons_prefix_cons, cons.injEq]
      unfold matchEnds
      rw [if_pos hab]
      cases h with
      | nil =>
        cases d with
        | nil => simp
        | cons c d => simp
      | cons c h =>
        cases hd : d ++ [dot] with
        | nil => simp at hd
        | cons e d' =>
          have := ih a (cons_ne_nil c h)
          rwa [hd] at this
    · obtain ⟨hneg, hpos⟩ := matchEnds_of_ne sub next h (d ++ [dot]) hab
      have hkey : key a ≠ key b := fun h => hab (key_inj.mp h)
      rw [hneg]
      refine ⟨by simp [hkey], iff_of_false ?_ ?_⟩
      · rcases lt_or_gt_of_ne hkey with hlt | hgt
        · omega
        · omega
      · simp [hkey, hkey.symm]

/-! ## Values as intervals -/

namespace DomainValue

variable {v : DomainValue} {p q : List ℕ}

/-- The least name of a value. -/
def root (v : DomainValue) : List ℕ := keys v.name

/-- The names of a value. -/
def den (v : DomainValue) : Set (List ℕ) :=
  {p | p = v.root ∨ (v.dotted = true ∧ v.root ++ [0] <+: p)}

theorem root_mem_den (v : DomainValue) : v.root ∈ v.den := .inl rfl

theorem root_ne_nil (v : DomainValue) : v.root ≠ [] := by
  unfold root keys
  simpa using v.name_ne_nil

theorem not_append_lt (r s : List ℕ) : ¬ r ++ s < r := by
  induction r with
  | nil => simp
  | cons a r ih => simpa [cons_lt_cons_iff] using ih

theorem root_le (hp : p ∈ v.den) : v.root ≤ p := by
  rcases hp with rfl | ⟨-, s, rfl⟩
  · exact le_rfl
  · rw [append_assoc]
    exact not_lt.mp (not_append_lt _ _)

/-- Between a name and one of its subdomains there are only its subdomains. -/
theorem eq_or_prefix_of_between {r s : List ℕ} (hr : ¬ q < r) (hq : ¬ r ++ 0 :: s < q) :
    q = r ∨ r ++ [0] <+: q := by
  induction r generalizing q with
  | nil =>
    cases q with
    | nil => exact .inl rfl
    | cons c q =>
      rw [nil_append, cons_lt_cons_iff] at hq
      have hc : c = 0 := by omega
      exact .inr (by simp [hc])
  | cons a r ih =>
    cases q with
    | nil => exact absurd (nil_lt_cons a r) hr
    | cons c q =>
      rw [cons_append, cons_lt_cons_iff] at hq
      rw [cons_lt_cons_iff] at hr
      have hc : c = a := by omega
      subst hc
      simp only [lt_irrefl, true_and, false_or] at hr hq
      exact (ih hr hq).imp (fun h => by rw [h]) fun h => by
        rw [cons_append, cons_prefix_cons]
        exact ⟨rfl, h⟩

/-- **The names of a value are an interval.** -/
theorem mem_den_of_between (hp : p ∈ v.den) (hroot : v.root ≤ q) (hq : q ≤ p) : q ∈ v.den := by
  rcases hp with rfl | ⟨hdot, s, rfl⟩
  · exact .inl (le_antisymm hq hroot)
  · rw [append_assoc] at hq
    exact (eq_or_prefix_of_between (not_lt.mpr hroot) (not_lt.mpr hq)).imp_right
      fun h => ⟨hdot, h⟩

end DomainValue

theorem keys_eq (s : CString) : s.reverse.map key = keys s := by
  unfold keys
  rw [map_reverse]

open DomainValue

/-- **The comparison sees where a host stands**, before the root of the value
or in it. -/
theorem matchDomainName_spec : (matchDomainName h v.text < 0 ↔ keys (stripDots h) < v.root) ∧
      (matchDomainName h v.text = 0 ↔ keys (stripDots h) ∈ v.den) := by
  have hname : v.name.reverse ≠ [] := by simpa using v.name_ne_nil
  unfold matchDomainName
  by_cases hh : stripDots h = []
  · simp only [hh, if_true]
    have hnil : keys [] < v.root := by
      cases hroot : v.root with
      | nil => exact absurd hroot v.root_ne_nil
      | cons a r => exact nil_lt_cons a r
    refine ⟨iff_of_true (by omega) hnil, iff_of_false (by omega) fun hmem => ?_⟩
    exact absurd hnil (not_lt_of_ge (root_le hmem))
  · have htext : v.text ≠ [] := by
      unfold text
      split
      · simp
      · exact v.name_ne_nil
    have hrev : (stripDots h).reverse ≠ [] := by simpa using hh
    simp only [hh, htext, if_false]
    by_cases hdot : v.dotted = true
    · have h1 := matchEnds_dotted (decide (h.head? = some dot)) 0 (d := v.name.reverse) hrev
      rw [keys_eq, keys_eq] at h1
      have hrevtext : v.text.reverse = v.name.reverse ++ [dot] := by
        rw [text, if_pos hdot, reverse_cons]
      rw [hrevtext]
      exact ⟨h1.1, h1.2.trans (or_congr_right (and_iff_right hdot).symm)⟩
    · have htext' : v.text = v.name := by rw [text, if_neg hdot]
      have hlast : v.name.reverse.getLast? ≠ some dot := by
        rw [getLast?_reverse]
        exact v.head_ne_dot
      have h1 := matchEnds_plain (decide (h.head? = some dot)) 0 hrev hname hlast
      rw [keys_eq, keys_eq] at h1
      rw [htext']
      refine ⟨h1.1, Iff.trans ?_ (or_iff_left fun h => hdot h.1).symm⟩
      rw [← not_iff_not, ← ne_eq, ← ne_eq, ne_iff_lt_or_gt, ne_iff_lt_or_gt]
      exact or_congr h1.1 h1.2

theorem matchDomainName_neg :
    matchDomainName h v.text < 0 ↔ ∀ q ∈ v.den, keys (stripDots h) < q := by
  rw [(matchDomainName_spec h v).1]
  exact ⟨fun hlt q hq => hlt.trans_le (root_le hq), fun hall => hall v.root v.root_mem_den⟩

theorem matchDomainName_pos :
    0 < matchDomainName h v.text ↔ ∀ q ∈ v.den, q < keys (stripDots h) := by
  obtain ⟨hneg, hzero⟩ := matchDomainName_spec h v
  constructor
  · intro hpos q hq
    have hroot : v.root ≤ keys (stripDots h) := not_lt.mp fun hlt => by
      have := hneg.mpr hlt
      omega
    by_contra hle
    have := hzero.mpr (mem_den_of_between hq hroot (not_lt.mp hle))
    omega
  · intro hall
    have h1 : ¬ matchDomainName h v.text < 0 :=
      fun hlt => lt_asymm (hneg.mp hlt) (hall v.root v.root_mem_den)
    have h2 : matchDomainName h v.text ≠ 0 :=
      fun heq => lt_irrefl _ (hall _ (hzero.mp heq))
    omega

/-! ## The comparison of values -/

theorem stripDots_text : stripDots v.text = v.name := by
  have hname : v.name.dropWhile (· = dot) = v.name := by
    cases hv : v.name with
    | nil => rfl
    | cons a s =>
      have hne := v.head_ne_dot
      rw [hv] at hne
      rw [dropWhile_cons_of_neg]
      simpa using hne
  unfold stripDots text
  split
  · rw [dropWhile_cons_of_pos (by simp), hname]
  · exact hname

theorem domainCompare_neg (a b : DomainValue) :
    domainCompare a.text b.text < 0 ↔ Precedes a.den b.den := by
  have hba := (matchDomainName_spec b.text a).2
  have hab := matchDomainName_neg a.text b
  rw [stripDots_text] at hba hab
  unfold domainCompare
  constructor
  · intro hlt
    split at hlt
    · next hne =>
        -- a common name of the two would put the root of `b` into `a`
        rw [hab] at hlt
        intro p hp q hq
        by_contra hle
        refine hne (hba.mpr (mem_den_of_between hp ?_ ?_))
        · exact (hlt b.root b.root_mem_den).le
        · exact (root_le hq).trans (not_lt.mp hle)
    · exact absurd hlt (lt_irrefl _)
  · intro hprec
    have hne : matchDomainName b.text a.text ≠ 0 := fun heq =>
      lt_irrefl _ (hprec b.root (hba.mp heq) b.root b.root_mem_den)
    rw [if_pos hne, hab]
    exact fun q hq => hprec a.root a.root_mem_den q hq

theorem domainCompare_pos (a b : DomainValue) :
    0 < domainCompare a.text b.text ↔ Precedes b.den a.den := by
  have hba := (matchDomainName_spec b.text a).2
  have hab := matchDomainName_pos a.text b
  rw [stripDots_text] at hba hab
  unfold domainCompare
  constructor
  · intro hlt
    split at hlt
    · rw [hab] at hlt
      exact fun p hp q hq => (hlt p hp).trans_le (root_le hq)
    · exact absurd hlt (lt_irrefl _)
  · intro hprec
    have hne : matchDomainName b.text a.text ≠ 0 := fun heq =>
      lt_irrefl _ (hprec b.root b.root_mem_den b.root (hba.mp heq))
    rw [if_pos hne, hab]
    exact fun q hq => hprec q hq a.root a.root_mem_den

/-- Values that are neither before nor after each other share a root. -/
theorem root_mem_of_domainCompare {a b : DomainValue} (h : domainCompare a.text b.text = 0) :
    b.root ∈ a.den ∨ a.root ∈ b.den := by
  have hba := (matchDomainName_spec b.text a).2
  have hab := (matchDomainName_spec a.text b).2
  rw [stripDots_text] at hba hab
  unfold domainCompare at h
  split at h
  · exact .inr (hab.mp h)
  · next heq => exact .inl (hba.mp (not_not.mp heq))

theorem head?_text : v.text.head? = some dot ↔ v.dotted = true := by
  unfold text
  split
  · next h => simp [h]
  · next h => exact iff_of_false v.head_ne_dot h

theorem length_text : v.text.length = v.root.length + if v.dotted then 1 else 0 := by
  unfold text root keys
  split <;> simp

/-- What contains the root of a value with no longer a name contains all of
it. -/
theorem den_subset {a b : DomainValue} (hroot : a.root ∈ b.den)
    (hdot : a.dotted = true → b.dotted = true) : a.den ⊆ b.den := by
  intro p hp
  rcases hp with rfl | ⟨ha, hpre⟩
  · exact hroot
  · refine .inr ⟨hdot ha, ?_⟩
    rcases hroot with heq | ⟨-, hpre'⟩
    · rwa [← heq]
    · exact hpre'.trans ((prefix_append a.root [0]).trans hpre)

theorem domainInserter_lawful : domainInserter.Lawful den fun _ => True where
  nonempty {v} _ := ⟨v.root, v.root_mem_den⟩
  compare_neg {a b} _ _ := domainCompare_neg a b
  compare_pos {a b} _ _ := domainCompare_pos a b
  isSubset {a b} _ _ h hsub := by
    have hroots := root_mem_of_domainCompare h
    have hlen : ∀ {u w : DomainValue}, w.root ∈ u.den → u.root.length ≤ w.root.length ∧
        (w.root.length ≤ u.root.length → w.root = u.root) := by
      rintro u w (heq | ⟨-, hpre⟩)
      · exact ⟨by rw [heq], fun _ => heq⟩
      · have := hpre.length_le
        rw [length_append, length_singleton] at this
        exact ⟨by omega, fun _ => by omega⟩
    change domainIsSubset a.text b.text = true at hsub
    unfold domainIsSubset at hsub
    simp only [head?_text, length_text, ne_eq] at hsub
    have hroot : a.root ∈ b.den := by
      rcases hroots with hb | ha
      · have heq : b.root = a.root := by
          cases hda : a.dotted <;> cases hdb : b.dotted <;> simp only [hda, hdb] at hsub
          · exact hb.resolve_right fun h => by simp [hda] at h
          · exact hb.resolve_right fun h => by simp [hda] at h
          · simp at hsub
          · exact (hlen hb).2 (by simpa using hsub)
        exact .inl heq.symm
      · exact ha
    refine den_subset hroot fun hda => ?_
    cases hdb : b.dotted
    · simp [hda, hdb] at hsub
    · rfl
  combined {a b} _ _ h hab hba := by
    change domainIsSubset a.text b.text = false at hab
    change domainIsSubset b.text a.text = false at hba
    unfold domainIsSubset at hab hba
    simp only [head?_text, length_text, ne_eq] at hab hba
    cases hda : a.dotted <;> cases hdb : b.dotted <;> simp [hda, hdb] at hab hba
    omega

/-! ## The access list is a linear scan -/

/-- Two strings are equal but for the case of letters. -/
def EqNoCase (s t : CString) : Prop := s.map tolower = t.map tolower

/-- **What a value is meant to match**: the host without its leading dots is
the value, or it is the value without its dot, or the value has a dot and the
host ends with it. -/
def DomainValue.Matches (v : DomainValue) (host : CString) : Prop :=
  EqNoCase (stripDots host) v.text ∨ EqNoCase (stripDots host) v.name ∨
    (v.dotted = true ∧ ∃ s, s <:+ stripDots host ∧ EqNoCase s v.text)

theorem eqNoCase_iff_keys {s t : CString} : EqNoCase s t ↔ keys s = keys t := by
  unfold EqNoCase keys
  rw [reverse_inj]
  induction s generalizing t with
  | nil => cases t <;> simp
  | cons a s ih =>
    cases t with
    | nil => simp
    | cons b t => simp [ih, key_inj]

theorem keys_append (s t : CString) : keys (s ++ t) = keys t ++ keys s := by
  unfold keys
  rw [map_append, reverse_append]

/-- A host ends with a string when its keys begin with those of the string. -/
theorem exists_suffix_iff_keys {h t : CString} :
    (∃ s, s <:+ h ∧ EqNoCase s t) ↔ keys t <+: keys h := by
  constructor
  · rintro ⟨s, ⟨r, rfl⟩, hs⟩
    rw [keys_append, ← eqNoCase_iff_keys.mp hs]
    exact prefix_append _ _
  · intro hpre
    have hle : t.length ≤ h.length := by simpa [keys] using hpre.length_le
    refine ⟨h.drop (h.length - t.length), drop_suffix _ _, eqNoCase_iff_keys.mpr ?_⟩
    have hsplit := keys_append (h.take (h.length - t.length)) (h.drop (h.length - t.length))
    rw [take_append_drop] at hsplit
    rw [hsplit] at hpre
    refine ((prefix_of_prefix_length_le hpre (prefix_append _ _) ?_).eq_of_length ?_).symm
    · simp [keys]
      omega
    · simp [keys]
      omega

theorem matches_iff (host : CString) : v.Matches host ↔ keys (stripDots host) ∈ v.den := by
  have hdotted : v.dotted = true → keys v.text = v.root ++ [0] := by
    intro h
    rw [text, if_pos h]
    simp [keys, root, key_eq_zero.mpr]
  constructor
  · rintro (h | h | ⟨hdot, h⟩)
    · cases hdot : v.dotted
      · rw [text, hdot] at h
        exact .inl (eqNoCase_iff_keys.mp h)
      · refine .inr ⟨hdot, ?_⟩
        exact ⟨[], by rw [append_nil, ← hdotted hdot, eqNoCase_iff_keys.mp h]⟩
    · exact .inl (eqNoCase_iff_keys.mp h)
    · exact .inr ⟨hdot, hdotted hdot ▸ exists_suffix_iff_keys.mp h⟩
  · rintro (h | ⟨hdot, h⟩)
    · exact .inr (.inl (eqNoCase_iff_keys.mpr h))
    · exact .inr (.inr ⟨hdot, exists_suffix_iff_keys.mpr (hdotted hdot ▸ h)⟩)

/-- **The domain access list is a linear scan.** Whatever values are merged
and whatever hosts are looked up on the way, the list can be built, without a
combined value ever being asked for, and it matches a host if and only if one
of the values does. -/
theorem DomainData.match_iff_matches (events : List (Event DomainValue CString)) :
    ∃ domains, DomainData.after events = some domains ∧ ∀ host,
      (DomainData.match domains host).2 = true ↔ ∃ v ∈ merged events, v.Matches host := by
  obtain ⟨domains, hafter, hst, hpoints⟩ :=
    after_spec domainInserter_lawful _ events fun _ _ => trivial
  refine ⟨domains, hafter, fun host => ?_⟩
  have hfind := find_iff_mem_points (fun d => matchDomainName host d.text) hst
    (fun v _ => ⟨v.root, v.root_mem_den⟩)
    (fun v _ => matchDomainName_neg host v) (fun v _ => matchDomainName_pos host v)
    (fun v _ => (matchDomainName_spec host v).2)
  rw [hpoints] at hfind
  simp only [matches_iff]
  exact hfind

end Acl
