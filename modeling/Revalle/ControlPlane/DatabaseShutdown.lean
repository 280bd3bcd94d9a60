import Revalle.ControlPlane.DatabaseFlush

/-!
# What a shutdown writes

A shutdown goes through the collections in order. For each of them it finds, the question is
whether its file has the documents when the writes that were in flight at the call have
landed (`Good`); a collection that is still to come has to be good, or dirty with no such
write in flight (`Rest`), for then nothing can mark it clean but a write of what it has now.
-/

namespace ControlPlane.DatabaseFlush

open Function List Option

open QueuedWrite (land land_cons land_concat land_of_forall_ne)

section Shutdown

variable {κ D : Type} [DecidableEq κ]

/-! ## After the call

`T` writes were started before the shutdown. -/

/-- The writes in flight that were started before the shutdown. -/
def old (T : ℕ) (db : Db κ D) : List (QueuedWrite String (List D)) :=
  db.writes.take (T - db.completed)

/-- The file of a collection is right when these have landed. -/
def Good (T : ℕ) (db : Db κ D) (c : String) : Prop :=
  Agrees (land db.file (old T db) c) (db.collection c)

/-- A collection that the shutdown has still to look at. -/
def Rest (T : ℕ) (db : Db κ D) (c : String) : Prop :=
  Good T db c ∨ (db.collection c).dirty = true ∧ ∀ w ∈ old T db, w.key ≠ c

/-- How far the shutdown is, and what it has achieved. -/
def Position (T : ℕ) (db : Db κ D) : Phase → Prop
  | .done => ∀ c ∈ db.names, Good T db c
  | .waiting i ticket =>
    T ≤ ticket ∧ ticket < db.completed + db.writes.length ∧
      ∃ visited c rest, db.names = visited ++ c :: rest ∧ visited.length = i ∧
        (∀ x ∈ visited, Good T db x) ∧ (ticket < db.completed → Good T db c) ∧
        (db.completed ≤ ticket →
          ∃ w, db.writes[ticket - db.completed]? = some w ∧ w.key = c) ∧
        ∀ x ∈ rest, Rest T db x

/-- **The invariant** after the shutdown was called, as the call number `r` of `_flushAll`:
writes that were started since have what the collections have. -/
structure After (T r : ℕ) (db : Db κ D) : Prop where
  started : T ≤ db.completed + db.writes.length
  recent : ∀ w ∈ db.writes.drop (T - db.completed), w.value = (db.collection w.key).values
  position : ∃ phase, db.runs[r]? = some phase ∧ Position T db phase

/-- What `Position` depends on. -/
theorem Position.congr {T : ℕ} {db : Db κ D} {phase : Phase} (h : Position T db phase)
    (db' : Db κ D) (hnames : db'.names = db.names) (hcompleted : db'.completed = db.completed)
    (hlength : db.writes.length ≤ db'.writes.length)
    (hwrites : ∀ (n : ℕ) w, db.writes[n]? = some w → db'.writes[n]? = some w)
    (hgood : ∀ c, Good T db c → Good T db' c) (hrest : ∀ c, Rest T db c → Rest T db' c) :
    Position T db' phase := by
  cases phase with
  | done => exact fun c hc => hgood c (h c (hnames ▸ hc))
  | waiting i ticket =>
    obtain ⟨hT, hticket, visited, c, rest, hsplit, hi, hvisited, hpast, hpending, hrest'⟩ := h
    refine ⟨hT, by omega, visited, c, rest, hnames.trans hsplit, hi,
      fun x hx => hgood x (hvisited x hx), fun hlt => hgood c (hpast (hcompleted ▸ hlt)),
      fun hle => ?_, fun x hx => hrest x (hrest' x hx)⟩
    rw [hcompleted] at hle ⊢
    obtain ⟨w, hw, hkey⟩ := hpending hle
    exact ⟨w, hwrites _ w hw, hkey⟩

/-! ## Starts of writes -/

section Start

variable {T r : ℕ} {db : Db κ D}

section

variable (hstarted : T ≤ db.completed + db.writes.length)
include hstarted

theorem old_startWrite (name : String) : old T (db.startWrite name) = old T db := by
  show (db.writes ++ [_]).take (T - db.completed) = db.writes.take (T - db.completed)
  exact take_append_of_le_length (by omega)

theorem good_startWrite (name c : String) : Good T (db.startWrite name) c ↔ Good T db c := by
  rw [Good, Good, old_startWrite hstarted]
  rfl

theorem rest_startWrite (name c : String) : Rest T (db.startWrite name) c ↔ Rest T db c := by
  rw [Rest, Rest, good_startWrite hstarted, old_startWrite hstarted]
  rfl

theorem position_startWrite (name : String) {phase : Phase} (h : Position T db phase) :
    Position T (db.startWrite name) phase := by
  refine h.congr (db.startWrite name) rfl rfl ?_ ?_ (fun c => (good_startWrite hstarted name c).mpr)
    (fun c => (rest_startWrite hstarted name c).mpr)
  · show db.writes.length ≤ (db.writes ++ [_]).length
    simp
  · intro n w hw
    show (db.writes ++ [_])[n]? = some w
    rw [List.getElem?_append_left (List.getElem?_eq_some_iff.mp hw).1]
    exact hw

theorem recent_startWrite
    (hrecent : ∀ w ∈ db.writes.drop (T - db.completed), w.value = (db.collection w.key).values)
    (name : String) : ∀ w ∈ (db.startWrite name).writes.drop (T - db.completed),
      w.value = (db.collection w.key).values := by
  have hdrop : (db.startWrite name).writes.drop (T - db.completed) =
      db.writes.drop (T - db.completed) ++ [⟨name, (db.collection name).values⟩] :=
    drop_append_of_le_length (by omega)
  rw [hdrop]
  exact forall_mem_append.mpr ⟨hrecent, forall_mem_singleton.mpr rfl⟩

end

theorem After.startWrite (h : After T r db) (name : String) : After T r (db.startWrite name) := by
  obtain ⟨phase, hphase, hposition⟩ := h.position
  refine ⟨?_, recent_startWrite h.started h.recent name, phase, hphase,
    position_startWrite h.started name hposition⟩
  have hstarted := h.started
  show T ≤ db.completed + (db.writes ++ [_]).length
  rw [length_append]
  omega

theorem After.timer (h : After T r db) (name : String) : After T r (db.timer name) := by
  unfold Db.timer
  split
  · have hstart := h.startWrite name
    obtain ⟨phase, hphase, hposition⟩ := hstart.position
    have hvalues := unscheduled_collection db name
    refine ⟨hstart.started, fun w hw => ?_, phase, hphase, ?_⟩
    · show w.value = (update db.collection name _ w.key).values
      rw [(hvalues w.key).1]
      exact hstart.recent w hw
    · have hgood : ∀ c, Good T (db.startWrite name) c → Good T ((db.startWrite name).setCollection
          name { db.collection name with scheduled := false }) c := by
        intro c hc
        show _ = (update db.collection name _ c).values
        rw [(hvalues c).1]
        exact hc
      refine hposition.congr ((db.startWrite name).setCollection name
        { db.collection name with scheduled := false }) rfl rfl (Nat.le_refl _) (fun _ _ => id)
        hgood (fun c hc => ?_)
      rcases hc with hc | ⟨hdirty, hold⟩
      · exact .inl (hgood c hc)
      · refine .inr ⟨?_, hold⟩
        show (update db.collection name _ c).dirty = true
        rw [(hvalues c).2]
        exact hdirty
  · exact h

end Start

/-! ## Completions -/

section Complete

variable {T r : ℕ} {db : Db κ D} {w : QueuedWrite String (List D)}
  {writes : List (QueuedWrite String (List D))}

/-- The state after the oldest write has completed. -/
theorem complete_eq (hw : db.writes = w :: writes) : db.complete = { db with
      file := update db.file w.key (some w.value)
      collection := update db.collection w.key { db.collection w.key with dirty := false }
      writes := writes
      completed := db.completed + 1 } := by
  unfold Db.complete
  rw [hw]

theorem good_complete (h : After T r db) (hw : db.writes = w :: writes) {c : String}
    (hgood : Good T db c ∨ c = w.key ∧ T ≤ db.completed) : Good T db.complete c := by
  rw [Good, Agrees, values_complete, complete_eq hw]
  show (land (update db.file w.key (some w.value)) (writes.take (T - (db.completed + 1)))
    c).getD [] = _
  by_cases hold : T ≤ db.completed
  · -- the write is a recent one, and no old ones are left
    have hnone : T - db.completed = 0 := by omega
    have hnone' : T - (db.completed + 1) = 0 := by omega
    rw [hnone', take_zero, QueuedWrite.land_nil]
    by_cases hc : c = w.key
    · have hrecent := h.recent w (by rw [hnone, hw]; exact mem_cons_self)
      rw [hc, update_self, hrecent]
      rfl
    · rw [update_of_ne hc]
      rcases hgood with hgood | ⟨hc', -⟩
      · rw [Good, old, hnone, take_zero] at hgood
        exact hgood
      · exact absurd hc' hc
  · obtain ⟨n, hn⟩ : ∃ n, T - db.completed = n + 1 := ⟨T - db.completed - 1, by omega⟩
    have hn' : T - (db.completed + 1) = n := by omega
    rw [hn', ← land_cons]
    rcases hgood with hgood | ⟨-, hle⟩
    · rw [Good, old, hn, hw, take_succ_cons] at hgood
      exact hgood
    · exact absurd hle hold

theorem old_complete_subset (hw : db.writes = w :: writes) :
    ∀ x ∈ old T db.complete, x ∈ old T db := by
  intro x hx
  rw [complete_eq hw] at hx
  have hx : x ∈ writes.take (T - (db.completed + 1)) := hx
  rw [old, hw]
  by_cases hold : T ≤ db.completed
  · rw [show T - (db.completed + 1) = 0 by omega] at hx
    exact nomatch hx
  · obtain ⟨n, hn⟩ : ∃ n, T - db.completed = n + 1 := ⟨T - db.completed - 1, by omega⟩
    rw [show T - (db.completed + 1) = n by omega] at hx
    rw [hn, take_succ_cons]
    exact mem_cons_of_mem _ hx

theorem rest_complete (h : After T r db) (hw : db.writes = w :: writes) {c : String}
    (hrest : Rest T db c) : Rest T db.complete c := by
  rcases hrest with hgood | ⟨hdirty, hold⟩
  · exact .inl (good_complete h hw (.inl hgood))
  · by_cases hc : c = w.key
    · by_cases hT : T ≤ db.completed
      · exact .inl (good_complete h hw (.inr ⟨hc, hT⟩))
      · -- an old write of the collection was in flight
        obtain ⟨n, hn⟩ : ∃ n, T - db.completed = n + 1 := ⟨T - db.completed - 1, by omega⟩
        refine absurd hc.symm (hold w ?_)
        rw [old, hn, hw, take_succ_cons]
        exact mem_cons_self
    · refine .inr ⟨?_, fun x hx => hold x (old_complete_subset hw x hx)⟩
      rw [complete_eq hw]
      show (update db.collection w.key _ c).dirty = true
      rw [update_of_ne hc]
      exact hdirty

theorem After.complete (h : After T r db) : After T r db.complete := by
  cases hw : db.writes with
  | nil =>
    have : db.complete = db := by
      unfold Db.complete
      rw [hw]
    rw [this]
    exact h
  | cons w writes =>
    obtain ⟨phase, hphase, hposition⟩ := h.position
    have hstarted := h.started
    rw [hw, length_cons] at hstarted
    refine ⟨?_, fun x hx => ?_, phase, ?_, ?_⟩
    · rw [complete_eq hw]
      show T ≤ db.completed + 1 + writes.length
      omega
    · rw [values_complete]
      rw [complete_eq hw] at hx
      refine h.recent x ?_
      rw [hw]
      by_cases hT : T ≤ db.completed
      · rw [show T - db.completed = 0 by omega, drop_zero]
        exact mem_cons_of_mem _ (mem_of_mem_drop hx)
      · rw [show T - db.completed = T - (db.completed + 1) + 1 by omega, drop_succ_cons]
        exact hx
    · rw [complete_eq hw]
      exact hphase
    · have hgood : ∀ c, Good T db c → Good T db.complete c :=
        fun c hc => good_complete h hw (.inl hc)
      have hnames : db.complete.names = db.names := by
        rw [complete_eq hw]
      have hcompleted : db.complete.completed = db.completed + 1 := by
        rw [complete_eq hw]
      have hwrites : db.complete.writes = writes := by
        rw [complete_eq hw]
      cases phase with
      | done =>
        intro c hc
        rw [hnames] at hc
        exact hgood c (hposition c hc)
      | waiting i ticket =>
        obtain ⟨hT, hticket, visited, c, rest, hsplit, hi, hvisited, hpast, hpending, hrest⟩ :=
          hposition
        rw [hw, length_cons] at hticket
        refine ⟨hT, ?_, visited, c, rest, ?_, hi, fun x hx => hgood x (hvisited x hx),
          fun hlt => ?_, fun hle => ?_, fun x hx => rest_complete h hw (hrest x hx)⟩
        · rw [hcompleted, hwrites]
          omega
        · rw [hnames, hsplit]
        · by_cases hlt' : ticket < db.completed
          · exact hgood c (hpast hlt')
          · -- the write that the shutdown waits for has completed now
            obtain ⟨x, hx, hkey⟩ := hpending (by omega)
            rw [hw, show ticket - db.completed = 0 by omega, getElem?_cons_zero] at hx
            obtain rfl := some.inj hx
            exact good_complete h hw (.inr ⟨hkey.symm, by omega⟩)
        · obtain ⟨x, hx, hkey⟩ := hpending (by omega)
          rw [hw, show ticket - db.completed = ticket - (db.completed + 1) + 1 by omega,
            getElem?_cons_succ] at hx
          rw [hwrites, hcompleted]
          exact ⟨x, hx, hkey⟩

end Complete

/-! ## Going on -/

section Advance

variable {T r : ℕ} {db : Db κ D}

theorem firstDirty_none {names : List String} {i : ℕ} (h : db.firstDirty names i = none) :
    ∀ c ∈ names, (db.collection c).dirty = false := by
  induction names generalizing i with
  | nil => exact nofun
  | cons name names ih =>
    rw [Db.firstDirty] at h
    split at h
    · exact nomatch h
    · rename_i hclean
      exact forall_mem_cons.mpr ⟨by simpa using hclean, ih h⟩

theorem firstDirty_some {names : List String} {i j : ℕ} {c : String}
    (h : db.firstDirty names i = some (j, c)) :
    ∃ before rest, names = before ++ c :: rest ∧ j = i + before.length ∧
      ∀ x ∈ before, (db.collection x).dirty = false := by
  induction names generalizing i with
  | nil => exact absurd h (by simp [Db.firstDirty])
  | cons name names ih =>
    rw [Db.firstDirty] at h
    split at h
    · obtain ⟨rfl, rfl⟩ := Prod.mk.inj (some.inj h)
      exact ⟨[], names, rfl, rfl, nofun⟩
    · rename_i hclean
      obtain ⟨before, rest, hnames, hj, hbefore⟩ := ih h
      refine ⟨name :: before, rest, by rw [hnames]; rfl, ?_,
        forall_mem_cons.mpr ⟨by simpa using hclean, hbefore⟩⟩
      rw [hj, length_cons]
      omega

/-- A collection that is found clean is good. -/
theorem Rest.good {c : String} (h : Rest T db c) (hclean : (db.collection c).dirty = false) :
    Good T db c := by
  rcases h with hgood | ⟨hdirty, -⟩
  · exact hgood
  · rw [hclean] at hdirty
    exact nomatch hdirty

/-- **The loop from a position on**, where what came before is good. -/
theorem position_examine (hstarted : T ≤ db.completed + db.writes.length) {i : ℕ}
    (visited rest : List String) (hnames : db.names = visited ++ rest) (hi : visited.length = i)
    (hvisited : ∀ x ∈ visited, Good T db x) (hrest : ∀ before c after, rest = before ++ c :: after →
      db.firstDirty rest i = some (i + before.length, c) → ∀ x ∈ after, Rest T db x)
    (hclean : ∀ x ∈ rest, (db.collection x).dirty = false → Good T db x) :
    Position T (db.examine i).1 (db.examine i).2 := by
  have hdrop : db.names.drop i = rest := by
    rw [hnames, ← hi, drop_left]
  unfold Db.examine
  rw [hdrop]
  cases hfirst : db.firstDirty rest i with
  | none =>
    show ∀ c ∈ db.names, _
    rw [hnames]
    exact forall_mem_append.mpr ⟨hvisited, fun c hc => hclean c hc (firstDirty_none hfirst c hc)⟩
  | some found =>
    obtain ⟨j, c⟩ := found
    obtain ⟨before, after, hsplit, rfl, hbefore⟩ := firstDirty_some hfirst
    refine ⟨hstarted, ?_, visited ++ before, c, after, ?_, ?_, fun x hx => ?_, fun hlt => ?_,
      fun _ => ?_, fun x hx => ?_⟩
    · show db.completed + db.writes.length < db.completed + (db.writes ++ [_]).length
      rw [length_append, length_singleton]
      omega
    · show db.names = _
      rw [hnames, hsplit, append_assoc]
    · rw [length_append, hi]
    · rw [good_startWrite hstarted]
      rcases mem_append.mp hx with hx | hx
      · exact hvisited x hx
      · refine hclean x ?_ (hbefore x hx)
        rw [hsplit]
        exact mem_append_left _ hx
    · have hlt : db.completed + db.writes.length < db.completed := hlt
      omega
    · refine ⟨⟨c, (db.collection c).values⟩, ?_, rfl⟩
      show (db.writes ++ [_])[db.completed + db.writes.length - db.completed]? = _
      simp
    · rw [rest_startWrite hstarted]
      exact hrest before c after hsplit hfirst x hx

theorem After.examine (h : After T r db) (i : ℕ) : After T r (db.examine i).1 := by
  rcases examine_fst db i with heq | ⟨name, heq⟩
  · rw [heq]
    exact h
  · rw [heq]
    exact h.startWrite name

theorem examine_runs (db : Db κ D) (i : ℕ) : (db.examine i).1.runs = db.runs := by
  rcases examine_fst db i with heq | ⟨name, heq⟩
  · rw [heq]
  · rw [heq]
    rfl

variable (h : After T r db)
include h

/-- Nothing depends on how far the other calls of `_flushAll` are. -/
theorem After.of_runs {runs : List Phase} {phase : Phase} (hphase : runs[r]? = some phase)
    (hposition : Position T db phase) : After T r { db with runs := runs } :=
  ⟨h.started, h.recent, phase, hphase,
    hposition.congr _ rfl rfl (Nat.le_refl _) (fun _ _ => id) (fun _ => id) (fun _ => id)⟩

theorem After.advance (r' : ℕ) : After T r (db.advance r') := by
  unfold Db.advance
  split
  · rename_i i ticket hphase
    split
    · rename_i hcompleted
      have hexamine := h.examine (i + 1)
      by_cases hr : r' = r
      · -- the shutdown itself goes on
        subst hr
        obtain ⟨phase, hphase', hposition⟩ := h.position
        rw [hphase] at hphase'
        obtain rfl := some.inj hphase'
        obtain ⟨-, -, visited, c, rest, hsplit, hi, hvisited, hpast, -, hrest⟩ := hposition
        have hposition : Position T (db.examine (i + 1)).1 (db.examine (i + 1)).2 := by
          refine position_examine h.started (visited ++ [c]) rest ?_ ?_ ?_ ?_ ?_
          · rw [hsplit, append_assoc]
            rfl
          · rw [length_append, hi]
            rfl
          · exact forall_mem_append.mpr ⟨hvisited, forall_mem_singleton.mpr (hpast hcompleted)⟩
          · intro before c' after heq _ x hx
            refine hrest x ?_
            rw [heq]
            exact mem_append_right _ (mem_cons_of_mem _ hx)
          · exact fun x hx hclean => (hrest x hx).good hclean
        exact hexamine.of_runs
          (List.getElem?_set_self (List.getElem?_eq_some_iff.mp hphase).1) hposition
      · obtain ⟨phase, hphase', hposition⟩ := hexamine.position
        refine hexamine.of_runs ?_ hposition
        rw [getElem?_set_ne hr, ← examine_runs db (i + 1)]
        exact hphase'
    · exact h
  · exact h

theorem After.step {step : Step κ D} (hback : step.isBackground = true) :
    After T r (step.run db) := by
  cases step with
  | timer name => exact h.timer name
  | complete => exact h.complete
  | advance r' => exact h.advance r'
  | insert name id doc => exact absurd hback (by simp [Step.isBackground])
  | update name id updates => exact absurd hback (by simp [Step.isBackground])
  | delete name id => exact absurd hback (by simp [Step.isBackground])
  | interval => exact absurd hback (by simp [Step.isBackground])

theorem After.run {steps : List (Step κ D)} (hback : ∀ step ∈ steps, step.isBackground = true) :
    After T r (runSteps db steps) := by
  induction steps generalizing db with
  | nil => exact h
  | cons step steps ih =>
    exact ih (h.step (hback step mem_cons_self)) (fun x hx => hback x (mem_cons_of_mem _ hx))

end Advance

/-! ## The call -/

theorem nodup_names {db : Db κ D} (h : db.names.Nodup) (steps : List (Step κ D)) :
    (runSteps db steps).names.Nodup := by
  induction steps generalizing db with
  | nil => exact h
  | cons step steps ih =>
    have hget : ∀ name, (db.getCollection name).names.Nodup := by
      intro name
      unfold Db.getCollection
      split
      · exact h
      · rename_i hname
        exact concat_eq_append ▸ h.concat hname
    refine ih (step_induction (P := fun db => db.names.Nodup) h step (fun name _ _ => hget name)
      hget (fun _ => h) (fun name => ?_) ?_ (fun _ _ h => h))
    · unfold Db.timer
      split <;> exact h
    · unfold Db.complete
      split <;> exact h

/-- The call of `shutdown`. -/
theorem after_flushAll {db : Db κ D} (hnodup : db.names.Nodup)
    (hsettled : ∀ c ∈ db.names, Settled db c) :
    After (db.completed + db.writes.length) db.runs.length db.flushAll := by
  have hold : old (db.completed + db.writes.length) db = db.writes := by
    rw [old, Nat.add_sub_cancel_left, take_length]
  have hgood : ∀ c, Good (db.completed + db.writes.length) db c ↔
      Agrees (land db.file db.writes c) (db.collection c) := by
    intro c
    rw [Good, hold]
  have hdrop : db.writes.drop (db.completed + db.writes.length - db.completed) = [] := by
    rw [Nat.add_sub_cancel_left, drop_length]
  have hposition : Position (db.completed + db.writes.length) (db.examine 0).1
      (db.examine 0).2 := by
    refine position_examine (Nat.le_refl _) [] db.names rfl rfl
      nofun ?_ ?_
    · intro before c after hsplit hfirst x hx
      have hxnames : x ∈ db.names := by
        rw [hsplit]
        exact mem_append_right _ (mem_cons_of_mem _ hx)
      rcases hsettled x hxnames with hx' | ⟨hdirty, hfirst' | hnone⟩
      · exact .inl ((hgood x).mpr hx')
      · -- the first dirty collection comes once
        rw [hfirst] at hfirst'
        obtain rfl : c = x := some.inj hfirst'
        rw [hsplit] at hnodup
        exact absurd hx (nodup_cons.mp hnodup.of_append_right).1
      · exact .inr ⟨hdirty, by rw [hold]; exact hnone⟩
    · intro x hx hclean
      rcases hsettled x hx with hx' | ⟨hdirty, -⟩
      · exact (hgood x).mpr hx'
      · rw [hclean] at hdirty
        exact nomatch hdirty
  refine ⟨?_, fun w hw => ?_, (db.examine 0).2, ?_, ?_⟩
  · show _ ≤ (db.examine 0).1.completed + (db.examine 0).1.writes.length
    rcases examine_fst db 0 with heq | ⟨name, heq⟩
    · exact Nat.le_of_eq (by rw [heq])
    · rw [heq]
      show _ ≤ db.completed + (db.writes ++ [_]).length
      rw [length_append]
      omega
  · have hw : w ∈ (db.examine 0).1.writes.drop
        (db.completed + db.writes.length - (db.examine 0).1.completed) := hw
    show w.value = ((db.examine 0).1.collection w.key).values
    rcases examine_fst db 0 with heq | ⟨name, heq⟩
    · rw [heq, hdrop] at hw
      exact absurd hw not_mem_nil
    · rw [heq] at hw ⊢
      refine recent_startWrite (Nat.le_refl (db.completed + db.writes.length)) (fun x hx => ?_)
        name w hw
      rw [hdrop] at hx
      exact absurd hx not_mem_nil
  · show (db.runs ++ [_])[db.runs.length]? = _
    simp
  · exact hposition.congr _ rfl rfl (Nat.le_refl _) (fun _ _ => id) (fun _ => id) (fun _ => id)

end Shutdown

/-- **What a shutdown writes**, for every history, of whatever changes, timers and flushes, and
every continuation. A clean collection without timer and write in flight agrees with its file.
If all collections are settled when the shutdown is called, all files agree with the memory
when the shutdown is done and the writes that were started before it have completed. They are
settled, if no collection was changed while a write of it was in flight. -/
theorem shutdown_writes {κ D : Type} [DecidableEq κ]
    (files : KeyedList (fun c : String × Docs κ D => c.1)) (steps : List (Step κ D)) :
    (∀ c, ((runSteps (.opened files) steps).collection c).dirty = false →
      (∀ w ∈ (runSteps (.opened files) steps).writes, w.key ≠ c) →
      ((runSteps (.opened files) steps).collection c).scheduled = false →
      Agrees ((runSteps (.opened files) steps).file c)
        ((runSteps (.opened files) steps).collection c)) ∧
    ((∀ c ∈ (runSteps (.opened files) steps).names, Settled (runSteps (.opened files) steps) c) →
      ∀ later : List (Step κ D), (∀ step ∈ later, step.isBackground = true) →
        (runSteps (runSteps (.opened files) steps).flushAll later).runs[
            (runSteps (.opened files) steps).runs.length]? = some .done →
        (runSteps (.opened files) steps).completed +
          (runSteps (.opened files) steps).writes.length ≤
          (runSteps (runSteps (.opened files) steps).flushAll later).completed →
        ∀ c ∈ (runSteps (runSteps (.opened files) steps).flushAll later).names,
          Agrees ((runSteps (runSteps (.opened files) steps).flushAll later).file c)
            ((runSteps (runSteps (.opened files) steps).flushAll later).collection c)) ∧
    (QuietRun (.opened files) steps → ∀ c, Settled (runSteps (.opened files) steps) c) := by
  refine ⟨fun c _ hwrites hscheduled => ?_, fun hsettled later hback hdone hcompleted c hc => ?_,
    fun hquiet c => ((quiet_opened files).run hquiet).settled c⟩
  · have hopened : Scheduled (Db.opened files) := fun c => .inr (agrees_opened files c)
    rcases hopened.run steps c with h | h
    · rw [hscheduled] at h
      exact nomatch h
    · rwa [land_of_forall_ne hwrites] at h
  · have hnodup : (runSteps (.opened files) steps).names.Nodup := nodup_names files.nodup steps
    obtain ⟨phase, hphase, hposition⟩ :=
      ((after_flushAll hnodup hsettled).run hback).position
    rw [hdone] at hphase
    obtain rfl := some.inj hphase
    have hgood := hposition c hc
    rw [Good, old, Nat.sub_eq_zero_of_le hcompleted, List.take_zero] at hgood
    exact hgood

/-- Two collections are changed, the second while a write of the first is in flight. -/
def twoCollections : List (Step ℕ ℕ) :=
  [.insert "users" 1 10, .timer "users", .insert "nodes" 2 20, .insert "nodes" 3 30,
    .update "nodes" 2 (· + 1)]

/-- The database is shut down while that write is in flight. -/
theorem shutdown_writes_two :
    (runSteps (.opened KeyedList.empty) twoCollections).writes = [⟨"users", [10]⟩] ∧
    ∀ c ∈ ["users", "nodes"],
      Agrees ((runSteps (runSteps (.opened KeyedList.empty) twoCollections).flushAll
          [.complete, .complete, .advance 0, .complete, .advance 0]).file c)
        ((runSteps (runSteps (.opened KeyedList.empty) twoCollections).flushAll
          [.complete, .complete, .advance 0, .complete, .advance 0]).collection c) := by
  have hquiet : QuietRun (.opened KeyedList.empty) twoCollections := by decide +kernel
  exact ⟨by decide +kernel, (shutdown_writes KeyedList.empty twoCollections).2.1
    (fun c _ => (shutdown_writes KeyedList.empty twoCollections).2.2 hquiet c)
    [.complete, .complete, .advance 0, .complete, .advance 0] (by decide) (by decide +kernel)
    (by decide +kernel)⟩

/-- **A document that a shutdown loses**: it is inserted while a write of its collection is in
flight. When that completes, the collection is clean, and the shutdown is done at once. -/
theorem lost_at_shutdown :
    (runSteps (.opened KeyedList.empty) [Step.insert "users" 1 10, .timer "users",
      .insert "users" 2 20, .complete]).flushAll.runs = [.done] ∧
    (runSteps (.opened KeyedList.empty) [Step.insert "users" 1 10, .timer "users",
      .insert "users" 2 20, .complete]).flushAll.writes = [] ∧
    (runSteps (.opened KeyedList.empty) [Step.insert "users" 1 10, .timer "users",
      .insert "users" 2 20, .complete]).flushAll.file "users" = some [10] ∧
    ((runSteps (.opened KeyedList.empty) [Step.insert "users" 1 10, .timer "users",
      .insert "users" 2 20, .complete]).flushAll.collection "users").values = [10, 20] := by
  decide +kernel

end ControlPlane.DatabaseFlush
