import Mathlib

/-!
# Lists of records with a key

A map that is iterated in the order of insertion, as a list of records each of which has its
key in it. Two records of the list have different keys.
-/

/-- Records in the order of insertion, with distinct keys. -/
structure KeyedList {α κ : Type} (key : α → κ) where
  toList : List α
  nodup : (toList.map key).Nodup

namespace KeyedList

open List

variable {α κ : Type} [DecidableEq κ] {key : α → κ}

def empty : KeyedList key := ⟨[], List.nodup_nil⟩

def get (l : KeyedList key) (k : κ) : Option α := l.toList.find? (fun a => key a = k)

/-- The records without the one under `k`. -/
def erase (l : KeyedList key) (k : κ) : KeyedList key where
  toList := l.toList.filter (fun a => key a ≠ k)
  nodup := l.nodup.sublist (List.filter_sublist.map key)

/-- The records for which `p` holds. -/
def filter (l : KeyedList key) (p : α → Bool) : KeyedList key where
  toList := l.toList.filter p
  nodup := l.nodup.sublist (List.filter_sublist.map key)

theorem map_key_replace (a : α) (l : List α) :
    (l.map (fun x => if key x = key a then a else x)).map key = l.map key := by
  rw [map_map]
  refine map_congr_left (fun x _ => ?_)
  show key (if key x = key a then a else x) = key x
  split
  · rename_i h
    exact h.symm
  · rfl

/-- The record `a` under its key: in the place of the record it replaces, or at the end. -/
def set (l : KeyedList key) (a : α) : KeyedList key :=
  if h : key a ∈ l.toList.map key then
    ⟨l.toList.map (fun x => if key x = key a then a else x), by
      rw [map_key_replace]
      exact l.nodup⟩
  else
    ⟨l.toList ++ [a], by
      rw [List.map_append]
      refine List.nodup_append.mpr ⟨l.nodup, List.nodup_singleton _, fun x hx y hy => ?_⟩
      rw [List.mem_singleton.mp hy]
      rintro rfl
      exact h hx⟩

/-- The record under `k` becomes `f` of it. -/
def modify (l : KeyedList key) (k : κ) (f : α → α) : KeyedList key :=
  match l.get k with
  | none => l
  | some a => l.set (f a)

variable {l : KeyedList key}

theorem get_eq_some_iff {k : κ} {a : α} : l.get k = some a ↔ a ∈ l.toList ∧ key a = k := by
  constructor
  · intro h
    exact ⟨mem_of_find?_eq_some h, by simpa using find?_some h⟩
  · rintro ⟨ha, rfl⟩
    cases h : l.get (key a) with
    | none =>
      have := find?_eq_none.mp h a ha
      simp at this
    | some b =>
      have hb : key b = key a := by simpa using find?_some h
      rw [inj_on_of_nodup_map l.nodup (mem_of_find?_eq_some h) ha hb]

theorem get_eq_none_iff {k : κ} : l.get k = none ↔ ∀ a ∈ l.toList, key a ≠ k := by
  simp [get, find?_eq_none]

theorem get_erase (l : KeyedList key) (k k' : κ) :
    (l.erase k).get k' = if k' = k then none else l.get k' := by
  split
  · rename_i h
    rw [h, get_eq_none_iff]
    intro a ha
    exact of_decide_eq_true (mem_filter.mp ha).2
  · rename_i h
    ext a
    simp only [get_eq_some_iff]
    constructor
    · rintro ⟨ha, hk⟩
      exact ⟨(mem_filter.mp ha).1, hk⟩
    · rintro ⟨ha, hk⟩
      refine ⟨mem_filter.mpr ⟨ha, ?_⟩, hk⟩
      simpa [hk] using h

theorem get_filter (l : KeyedList key) (p : α → Bool) (k : κ) :
    (l.filter p).get k = (l.get k).filter p := by
  ext a
  rw [Option.filter_eq_some_iff, get_eq_some_iff, get_eq_some_iff]
  show a ∈ l.toList.filter p ∧ _ ↔ _
  rw [mem_filter]
  tauto

theorem mem_set {a x : α} : x ∈ (l.set a).toList ↔ x = a ∨ x ∈ l.toList ∧ key x ≠ key a := by
  unfold set
  split
  · rename_i h
    rw [mem_map]
    constructor
    · rintro ⟨y, hy, rfl⟩
      split
      · exact .inl rfl
      · rename_i hne
        exact .inr ⟨hy, hne⟩
    · rintro (rfl | ⟨hx, hne⟩)
      · obtain ⟨y, hy, hkey⟩ := mem_map.mp h
        exact ⟨y, hy, if_pos hkey⟩
      · exact ⟨x, hx, if_neg hne⟩
  · rename_i h
    rw [mem_append, mem_singleton]
    constructor
    · rintro (hx | rfl)
      · exact .inr ⟨hx, fun hkey => h (hkey ▸ mem_map_of_mem hx)⟩
      · exact .inl rfl
    · rintro (rfl | ⟨hx, -⟩)
      · exact .inr rfl
      · exact .inl hx

/-- A record that is there is replaced by itself. -/
theorem toList_set_of_mem {a : α} (ha : a ∈ l.toList) : (l.set a).toList = l.toList := by
  rw [set, dif_pos (mem_map_of_mem ha)]
  refine (map_congr_left fun x hx => ?_).trans (map_id _)
  split
  · rename_i hkey
    exact (inj_on_of_nodup_map l.nodup hx ha hkey).symm
  · rfl

/-- A record with a new key is put at the end. -/
theorem toList_set_of_forall_ne {a : α} (ha : ∀ x ∈ l.toList, key x ≠ key a) :
    (l.set a).toList = l.toList ++ [a] := by
  rw [set, dif_neg]
  rintro h
  obtain ⟨x, hx, hkey⟩ := mem_map.mp h
  exact ha x hx hkey

theorem get_set (l : KeyedList key) (a : α) (k : κ) :
    (l.set a).get k = if k = key a then some a else l.get k := by
  ext x
  rw [get_eq_some_iff, mem_set]
  split
  · rename_i h
    subst h
    constructor
    · rintro ⟨rfl | ⟨-, hne⟩, hkey⟩
      · rfl
      · exact absurd hkey hne
    · rintro ⟨⟩
      exact ⟨.inl rfl, rfl⟩
  · rename_i h
    rw [get_eq_some_iff]
    constructor
    · rintro ⟨rfl | ⟨hx, -⟩, hkey⟩
      · exact absurd hkey.symm h
      · exact ⟨hx, hkey⟩
    · rintro ⟨hx, rfl⟩
      exact ⟨.inr ⟨hx, h⟩, rfl⟩

theorem get_modify (l : KeyedList key) {f : α → α} (hf : ∀ a, key (f a) = key a) (k k' : κ) :
    (l.modify k f).get k' = if k' = k then (l.get k').map f else l.get k' := by
  unfold modify
  by_cases hk : k' = k
  · subst hk
    rw [if_pos rfl]
    split
    · simp only [*, Option.map_none]
    · rename_i a h
      rw [get_set, hf, (get_eq_some_iff.mp h).2, if_pos rfl, h, Option.map_some]
  · rw [if_neg hk]
    split
    · rfl
    · rename_i a h
      rw [get_set, hf, (get_eq_some_iff.mp h).2, if_neg hk]

end KeyedList
