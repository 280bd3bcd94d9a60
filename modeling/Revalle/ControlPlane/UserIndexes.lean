import Revalle.ControlPlane.UserManager

/-!
# The user indexes

The keys `user:username:NAME` and `user:email:EMAIL` are to be indexes of the
records: each record is found through its name and its address, and each index
key leads to a record that has this name or address. `createUser` writes the
keys without a look at what they have, and `updateUser` writes the record only,
so a reused identifier, name or address and an update of a name or address each
break the indexes. These are the only ways: `indexed_run_iff` says that the
indexes are right after every prefix of a history if and only if each of its
calls is `Clean` where it runs.
-/

namespace ControlPlane.UserManager

open Option Store Falsy

/-- A call that writes accounts. -/
inductive Call where
  | createUser (userData : UserData) (random : String) (now : ℤ)
  | updateUser (userId : String) (updates : Updates)
  | deleteUser (userId : String)

/-- A call that fails leaves the store as it was. -/
def Call.run (bcrypt : Bcrypt) (s : Store) : Call → Store
  | .createUser userData random now =>
    UserManager.createUser bcrypt userData (generateUserId now random) now s
  | .updateUser userId updates => (UserManager.updateUser bcrypt userId updates s).toOption.getD s
  | .deleteUser userId => (UserManager.deleteUser userId s).toOption.getD s

/-- The store after a history. -/
def runCalls (bcrypt : Bcrypt) (calls : List Call) : Store :=
  calls.foldl (Call.run bcrypt) Store.empty

/-! ## The contents of a store -/

/-- The address of a user that is set: an empty one counts as none. -/
def User.mail (u : User) : Option String := u.email.filter (· ≠ "")

/-- The name that a user is indexed by. -/
def User.name (u : User) : String := label u.username

/-- The record `u` is stored under `user:id`. -/
def Store.Has (s : Store) (id : String) (u : User) : Prop := s (userKey id) = some (.record u)

/-- The username `name` leads to `id`. -/
def Store.Names (s : Store) (name id : String) : Prop := s (usernameKey name) = some (.text id)

/-- The address `email` leads to `id`. -/
def Store.Mails (s : Store) (email id : String) : Prop := s (emailKey email) = some (.text id)

instance (s : Store) (id : String) (u : User) : Decidable (s.Has id u) :=
  inferInstanceAs (Decidable (_ = _))

instance (s : Store) (name id : String) : Decidable (s.Names name id) :=
  inferInstanceAs (Decidable (_ = _))

/-- Index keys have no records, and there is no record under the empty identifier. -/
structure Typed (s : Store) : Prop where
  username : ∀ name u, s (usernameKey name) ≠ some (.record u)
  email : ∀ email u, s (emailKey email) ≠ some (.record u)
  id_ne : ∀ u, ¬s.Has "" u

/-- **The indexes are right.** A record is stored exactly when its name leads to
it, and likewise its address when it is set; no index key leads to a missing
user; so a name belongs to one user, who is found by it. -/
structure Indexed (s : Store) : Prop where
  names : ∀ id u, s.Has id u → s.Names u.name id
  mails : ∀ id u email, s.Has id u → u.mail = some email → s.Mails email id
  has_of_names : ∀ name id, s.Names name id → ∃ u, s.Has id u ∧ u.name = name
  has_of_mails : ∀ email id, s.Mails email id → ∃ u, s.Has id u ∧ u.mail = some email
  unshared : ∀ id id' u u', s.Has id u → s.Has id' u' → u.name = u'.name → id = id'
  found : ∀ id u, s.Has id u → getUserByUsername u.name s = .ok (some u)

variable {s s' : Store} {u v : User} {id : String}

theorem Store.Has.unique (hu : s.Has id u) (hv : s.Has id v) : u = v :=
  Value.record.inj (some.inj (hu.symm.trans hv))

/-! ## One index -/

/-- One of the indexes: its keys, and what a user is found by. -/
structure Index where
  key : String → String
  field : User → Option String

namespace Index

def byName : Index := ⟨usernameKey, fun u => some u.name⟩

def byMail : Index := ⟨emailKey, User.mail⟩

/-- The key of `x` leads to `id`. -/
def Leads (i : Index) (s : Store) (x id : String) : Prop := s (i.key x) = some (.text id)

/-- **The index is right**: it leads to the records that have a field, and nowhere
else. -/
structure Right (i : Index) (s : Store) : Prop where
  leads : ∀ id u x, s.Has id u → i.field u = some x → i.Leads s x id
  has : ∀ x id, i.Leads s x id → ∃ u, s.Has id u ∧ i.field u = some x

/-- A new record takes nothing in the index away from another user. -/
structure Free (i : Index) (s : Store) (u : User) : Prop where
  own : ∀ v, s.Has u.id v → ∀ x, i.field v = some x → i.field u = some x
  other : ∀ x id, i.field u = some x → i.Leads s x id → id = u.id

variable {i : Index} {x : String}

theorem Leads.unique {id' : String} (h : i.Leads s x id) (h' : i.Leads s x id') : id = id' :=
  Value.text.inj (some.inj (h.symm.trans h'))

/-- A new record keeps the index right exactly when it takes nothing away. -/
theorem Right.put_iff (h : i.Right s)
    (hhas : ∀ {id v}, s'.Has id v ↔ (id = u.id ∧ v = u) ∨ (id ≠ u.id ∧ s.Has id v))
    (hleads : ∀ {x id}, i.Leads s' x id ↔
      (i.field u = some x ∧ id = u.id) ∨ (i.field u ≠ some x ∧ i.Leads s x id)) :
    i.Right s' ↔ i.Free s u := by
  have hself : s'.Has u.id u := hhas.mpr (.inl ⟨rfl, rfl⟩)
  constructor
  · refine fun h' => ⟨fun v hv x hx => ?_, fun x id hx hl => ?_⟩
    · by_contra hne
      -- the old key still leads here, where the new record has another field
      obtain ⟨w, hw, hwx⟩ := h'.has x u.id (hleads.mpr (.inr ⟨hne, h.leads u.id v x hv hx⟩))
      exact hne (hw.unique hself ▸ hwx)
    · by_contra hne
      obtain ⟨v, hv, hvx⟩ := h.has x id hl
      have hstays : s'.Has id v := hhas.mpr (.inr ⟨hne, hv⟩)
      exact hne ((h'.leads id v x hstays hvx).unique (h'.leads u.id u x hself hx))
  · refine fun hfree => ⟨fun id v x hv hx => ?_, fun x id hl => ?_⟩
    · rw [hleads]
      rcases hhas.mp hv with ⟨rfl, rfl⟩ | ⟨hne, hv⟩
      · exact .inl ⟨hx, rfl⟩
      · have hl := h.leads id v x hv hx
        exact .inr ⟨fun heq => hne (hfree.other x id heq hl), hl⟩
    · rcases hleads.mp hl with ⟨hx, rfl⟩ | ⟨hne, hl⟩
      · exact ⟨u, hself, hx⟩
      · obtain ⟨v, hv, hvx⟩ := h.has x id hl
        -- the old user with this field is not the one replaced
        refine ⟨v, hhas.mpr (.inr ⟨?_, hv⟩), hvx⟩
        rintro rfl
        exact hne (hfree.own v hv x hvx)

/-- Replacing a record keeps the index right exactly when it keeps the field. -/
theorem Right.set_iff (h : i.Right s) (hu : s.Has id u)
    (hhas : ∀ {id' w}, s'.Has id' w ↔ (id' = id ∧ w = v) ∨ (id' ≠ id ∧ s.Has id' w))
    (hleads : ∀ {x id}, i.Leads s' x id ↔ i.Leads s x id) : i.Right s' ↔ i.field v = i.field u := by
  have hself : s'.Has id v := hhas.mpr (.inl ⟨rfl, rfl⟩)
  constructor
  · refine fun h' => ext fun x => ⟨fun hx => ?_, fun hx => ?_⟩
    · obtain ⟨w, hw, hwx⟩ := h.has x id (hleads.mp (h'.leads id v x hself hx))
      exact hw.unique hu ▸ hwx
    · obtain ⟨w, hw, hwx⟩ := h'.has x id (hleads.mpr (h.leads id u x hu hx))
      exact hw.unique hself ▸ hwx
  · refine fun heq => ⟨fun id' w x hw hx => hleads.mpr ?_, fun x id' hl => ?_⟩
    · rcases hhas.mp hw with ⟨rfl, rfl⟩ | ⟨-, hw⟩
      · exact h.leads id' u x hu (heq ▸ hx)
      · exact h.leads id' w x hw hx
    · obtain ⟨w, hw, hwx⟩ := h.has x id' (hleads.mp hl)
      by_cases hid : id' = id
      · subst hid
        exact ⟨v, hself, heq.trans (hw.unique hu ▸ hwx)⟩
      · exact ⟨w, hhas.mpr (.inr ⟨hid, hw⟩), hwx⟩

/-- Deleting a user takes it out of the index. -/
theorem Right.drop (h : i.Right s) (hu : s.Has id u)
    (hhas : ∀ {id' v}, s'.Has id' v ↔ id' ≠ id ∧ s.Has id' v)
    (hleads : ∀ {x id'}, i.Leads s' x id' ↔ i.field u ≠ some x ∧ i.Leads s x id') : i.Right s' := by
  refine ⟨fun id' v x hv hx => ?_, fun x id' hl => ?_⟩
  · obtain ⟨hne, hv⟩ := hhas.mp hv
    have hl := h.leads id' v x hv hx
    exact hleads.mpr ⟨fun heq => hne (hl.unique (h.leads id u x hu heq)), hl⟩
  · obtain ⟨hne, hl⟩ := hleads.mp hl
    obtain ⟨v, hv, hvx⟩ := h.has x id' hl
    refine ⟨v, hhas.mpr ⟨?_, hv⟩, hvx⟩
    rintro rfl
    exact hne (hv.unique hu ▸ hvx)

end Index

open Index

/-- **The indexes are right when each of them is.** -/
theorem Typed.indexed_iff (htyped : Typed s) : Indexed s ↔ byName.Right s ∧ byMail.Right s := by
  constructor
  · refine fun h => ⟨⟨fun id u x hu hx => ?_, fun x id hl => ?_⟩,
      fun id u x => h.mails id u x, h.has_of_mails⟩
    · exact some.inj hx ▸ h.names id u hu
    · obtain ⟨u, hu, rfl⟩ := h.has_of_names x id hl
      exact ⟨u, hu, rfl⟩
  · rintro ⟨hn, hm⟩
    have hnames : ∀ id u, s.Has id u → s.Names u.name id := fun id u hu => hn.leads id u _ hu rfl
    refine ⟨hnames, fun id u x => hm.leads id u x, fun x id hl => ?_, hm.has,
      fun id id' u u' hu hu' heq => ?_, fun id u hu => ?_⟩
    · obtain ⟨u, hu, hux⟩ := hn.has x id hl
      exact ⟨u, hu, some.inj hux⟩
    · exact (hn.leads id u _ hu rfl).unique (hn.leads id' u' _ hu' (congrArg some heq.symm))
    · have hid : id ≠ "" := fun h => htyped.id_ne u (h ▸ hu)
      have hname : s (usernameKey u.name) = some (.text id) := hnames id u hu
      have hhas : s (userKey id) = some (.record u) := hu
      simp [getUserByUsername, hname, hid, getUser, hhas]

/-! ## What the calls write -/

/-- What the email branch of `createUser` and `deleteUser` writes for a user. -/
theorem mail_branch {α : Type} (u : User) (f : String → α) (x : α) :
    (if truthy u.email then f (label u.email) else x) = (u.mail.map f).getD x := by
  unfold User.mail truthy label
  cases u.email with
  | none => rfl
  | some email => by_cases h : email = "" <;> simp [Option.filter, h]

/-- The three writes of `createUser`, for a given record. -/
def Store.put (s : Store) (u : User) : Store :=
  let s := (s.set (userKey u.id) (.record u)).set (usernameKey u.name) (.text u.id)
  (u.mail.map (fun email => s.set (emailKey email) (.text u.id))).getD s

theorem createUser_eq_put (bcrypt : Bcrypt) (userData : UserData) (generated : String) (now : ℤ)
    (s : Store) :
    createUser bcrypt userData generated now s = s.put (newUser bcrypt userData generated now) :=
  mail_branch _ (fun email => set _ (emailKey email) _) _

/-- The three deletions of `deleteUser`, for the record it has read. -/
def Store.drop (s : Store) (id : String) (u : User) : Store :=
  let s := (s.del (userKey id)).del (usernameKey u.name)
  (u.mail.map (fun email => s.del (emailKey email))).getD s

theorem deleteUser_eq_drop (h : s.Has id u) : (deleteUser id s).toOption.getD s = s.drop id u := by
  have hhas : s (userKey id) = some (.record u) := h
  simp only [deleteUser, getUser, hhas]
  exact mail_branch u (fun email => del _ (emailKey email)) _

/-- A call about a user who is not there changes nothing. -/
theorem has_of_getUser (h : getUser id s = .ok (some u)) : s.Has id u := by
  unfold getUser at h
  split at h
  · simp at h
  · rename_i v hv
    obtain rfl : v = u := by simpa using h
    exact hv
  · simp at h

theorem deleteUser_of_not_has (h : ∀ u, ¬s.Has id u) : (deleteUser id s).toOption.getD s = s := by
  unfold deleteUser
  split
  · rfl
  · rfl
  · next u hu => exact absurd (has_of_getUser hu) (h u)

theorem updateUser_of_not_has (h : ∀ u, ¬s.Has id u) (bcrypt : Bcrypt) (updates : Updates) :
    (updateUser bcrypt id updates s).toOption.getD s = s := by
  unfold updateUser
  split
  · rfl
  · rfl
  · next u hu => exact absurd (has_of_getUser hu) (h u)

theorem updateUser_of_has (h : s.Has id u) (bcrypt : Bcrypt) (updates : Updates) :
    (updateUser bcrypt id updates s).toOption.getD s =
      s.set (userKey id) (.record (u.assign bcrypt updates)) := by
  have hhas : s (userKey id) = some (.record u) := h
  simp only [updateUser, getUser, hhas]
  rfl

section Contents

variable {x id' : String}

theorem put_eq_some_iff {k : String} {w : Value} : s.put u k = some w ↔
    (∃ email, u.mail = some email ∧ k = emailKey email ∧ w = .text u.id) ∨
      (∀ email, u.mail = some email → k ≠ emailKey email) ∧
        ((k = usernameKey u.name ∧ w = .text u.id) ∨ k ≠ usernameKey u.name ∧
          ((k = userKey u.id ∧ w = .record u) ∨ k ≠ userKey u.id ∧ s k = some w)) := by
  unfold put
  cases u.mail with
  | none => simp [set_eq_some_iff]
  | some email => simp [set_eq_some_iff]

theorem drop_eq_some_iff {k : String} {w : Value} : s.drop id u k = some w ↔
    (∀ email, u.mail = some email → k ≠ emailKey email) ∧ k ≠ usernameKey u.name ∧
      k ≠ userKey id ∧ s k = some w := by
  unfold drop
  cases u.mail with
  | none => simp [del_eq_some_iff]
  | some email => simp [del_eq_some_iff]

/-- Where a record is stored, there is no index key. -/
theorem Typed.userKey_ne (htyped : Typed s) (h : s.Has id u) :
    (∀ name, userKey id ≠ usernameKey name) ∧ ∀ email, userKey id ≠ emailKey email :=
  ⟨fun name heq => htyped.username name u (heq ▸ h),
    fun email heq => htyped.email email u (heq ▸ h)⟩

theorem put_has_iff (htyped : Typed s) (hid : Proper u.id) :
    (s.put u).Has id v ↔ (id = u.id ∧ v = u) ∨ (id ≠ u.id ∧ s.Has id v) := by
  have hindex := @Typed.userKey_ne s v id htyped
  have hname := hid.userKey_ne_usernameKey u.name
  have hmail := hid.userKey_ne_emailKey
  unfold Store.Has at *
  simp only [put_eq_some_iff, ne_eq, userKey_inj, reduceCtorEq, Value.record.injEq]
  grind

theorem put_leads_byName (hid : Proper u.id) : byName.Leads (s.put u) x id ↔
    (byName.field u = some x ∧ id = u.id) ∨ (byName.field u ≠ some x ∧ byName.Leads s x id) := by
  have hkey := hid.userKey_ne_usernameKey x
  have hne := usernameKey_ne_emailKey x
  simp only [Leads, byName, put_eq_some_iff, ne_eq, usernameKey_inj, reduceCtorEq,
    Value.text.injEq, some.injEq]
  grind

theorem put_leads_byMail (hid : Proper u.id) : byMail.Leads (s.put u) x id ↔
    (byMail.field u = some x ∧ id = u.id) ∨ (byMail.field u ≠ some x ∧ byMail.Leads s x id) := by
  have hkey := hid.userKey_ne_emailKey x
  have hne := usernameKey_ne_emailKey u.name x
  simp only [Leads, byMail, put_eq_some_iff, ne_eq, emailKey_inj, reduceCtorEq, Value.text.injEq]
  grind

theorem set_has_iff {w : User} :
    (s.set (userKey id) (.record v)).Has id' w ↔ (id' = id ∧ w = v) ∨ (id' ≠ id ∧ s.Has id' w) := by
  simp [Store.Has, set_eq_some_iff, userKey_inj]

theorem set_leads_iff {i : Index} (h : ∀ x, userKey id ≠ i.key x) (v : User) :
    i.Leads (s.set (userKey id) (.record v)) x id' ↔ i.Leads s x id' := by
  simp [Leads, set_eq_some_iff, (h x).symm]

theorem drop_has_iff (htyped : Typed s) : (s.drop id u).Has id' v ↔ id' ≠ id ∧ s.Has id' v := by
  have hindex := @Typed.userKey_ne s v id' htyped
  unfold Store.Has at *
  simp only [drop_eq_some_iff, ne_eq, userKey_inj]
  grind

theorem drop_leads_byName (htyped : Typed s) (h : s.Has id u) : byName.Leads (s.drop id u) x id' ↔
    byName.field u ≠ some x ∧ byName.Leads s x id' := by
  have hkey := ((htyped.userKey_ne h).1 x).symm
  have hne := usernameKey_ne_emailKey x
  simp [Leads, byName, drop_eq_some_iff, usernameKey_inj, hkey, hne, eq_comm]

theorem drop_leads_byMail (htyped : Typed s) (h : s.Has id u) : byMail.Leads (s.drop id u) x id' ↔
    byMail.field u ≠ some x ∧ byMail.Leads s x id' := by
  have hkey := ((htyped.userKey_ne h).2 x).symm
  have hne := (usernameKey_ne_emailKey u.name x).symm
  simp only [Leads, byMail, drop_eq_some_iff, ne_eq, emailKey_inj]
  grind

end Contents

/-! ## The calls that keep the indexes -/

/-- A new record takes nothing away from another user: its identifier is new, or
that of a user with the same name who has no other address, and its name and
its address are new or that user's own. -/
structure Store.Free (s : Store) (u : User) : Prop where
  id : ∀ v, s.Has u.id v → v.name = u.name ∧ ∀ email, v.mail = some email → u.mail = some email
  name : ∀ id, s.Names u.name id → id = u.id
  mail : ∀ email id, u.mail = some email → s.Mails email id → id = u.id

/-- The calls that keep the indexes right. -/
def Call.Clean (bcrypt : Bcrypt) (s : Store) : Call → Prop
  | .createUser userData random now =>
    s.Free (newUser bcrypt userData (generateUserId now random) now)
  | .updateUser userId updates => ∀ u, s.Has userId u →
    (u.assign bcrypt updates).name = u.name ∧ (u.assign bcrypt updates).mail = u.mail
  | .deleteUser _ => True

/-- The identifier is none that would make the key of the user an index key. -/
def Call.ProperId : Call → Prop
  | .createUser userData random now => Proper (orDefault userData.id (generateUserId now random))
  | .updateUser userId _ => Proper userId
  | .deleteUser userId => Proper userId

/-- A new record takes nothing away when it takes nothing in either index. -/
theorem free_iff : s.Free u ↔ byName.Free s u ∧ byMail.Free s u := by
  constructor
  · refine fun h => ⟨⟨fun v hv x hx => ?_, fun x id hx hl => ?_⟩, fun v hv => (h.id v hv).2, h.mail⟩
    · exact (congrArg some (h.id v hv).1.symm).trans hx
    · exact h.name id (some.inj hx ▸ hl)
  · exact fun ⟨hn, hm⟩ => ⟨fun v hv => ⟨(some.inj (hn.own v hv _ rfl)).symm, hm.own v hv⟩,
      fun id => hn.other _ id rfl, hm.other⟩

section

variable (htyped : Typed s)
include htyped

/-- A new record keeps the kinds of the keys apart. -/
theorem Typed.put (hid : Proper u.id) (hne : u.id ≠ "") : Typed (s.put u) := by
  -- the only key that gets a record
  have hput : ∀ {k w}, s.put u k = some (.record w) →
      k = userKey u.id ∨ s k = some (.record w) := by
    intro k w h
    rw [put_eq_some_iff] at h
    grind
  refine ⟨fun name v h => ?_, fun email v h => ?_, fun v h => ?_⟩
  · exact (hput h).elim (hid.userKey_ne_usernameKey name).symm (htyped.username name v)
  · exact (hput h).elim (hid.userKey_ne_emailKey email).symm (htyped.email email v)
  · exact (hput h).elim (fun heq => hne (userKey_inj.mp heq).symm) (htyped.id_ne v)

theorem Typed.set (h : s.Has id u) (v : User) : Typed (s.set (userKey id) (.record v)) := by
  obtain ⟨hname, hmail⟩ := htyped.userKey_ne h
  refine ⟨fun name w hw => ?_, fun email w hw => ?_, fun w hw => ?_⟩
  · simp [set_eq_some_iff, (hname name).symm, htyped.username name w] at hw
  · simp [set_eq_some_iff, (hmail email).symm, htyped.email email w] at hw
  · rcases set_has_iff.mp hw with ⟨heq, -⟩ | ⟨-, hold⟩
    · exact htyped.id_ne u (heq ▸ h)
    · exact htyped.id_ne w hold

theorem Typed.drop (id : String) (u : User) : Typed (s.drop id u) :=
  ⟨fun name w hw => htyped.username name w (drop_eq_some_iff.mp hw).2.2.2,
    fun email w hw => htyped.email email w (drop_eq_some_iff.mp hw).2.2.2,
    fun w hw => htyped.id_ne w (drop_eq_some_iff.mp hw).2.2.2⟩

/-- A new record keeps the indexes right exactly when it takes nothing away from
others. -/
theorem Indexed.put_iff (hindexed : Indexed s) (hid : Proper u.id) (hne : u.id ≠ "") :
    Indexed (s.put u) ↔ s.Free u := by
  obtain ⟨hn, hm⟩ := htyped.indexed_iff.mp hindexed
  rw [(htyped.put hid hne).indexed_iff, free_iff]
  exact and_congr (hn.put_iff (put_has_iff htyped hid) (put_leads_byName hid))
    (hm.put_iff (put_has_iff htyped hid) (put_leads_byMail hid))

/-- Replacing a record keeps the indexes right exactly when it keeps the name and
the address. -/
theorem Indexed.set_iff (hindexed : Indexed s) (hu : s.Has id u) (v : User) :
    Indexed (s.set (userKey id) (.record v)) ↔ v.name = u.name ∧ v.mail = u.mail := by
  obtain ⟨hn, hm⟩ := htyped.indexed_iff.mp hindexed
  obtain ⟨hname, hmail⟩ := htyped.userKey_ne hu
  rw [(htyped.set hu v).indexed_iff, hn.set_iff hu set_has_iff (set_leads_iff hname v),
    hm.set_iff hu set_has_iff (set_leads_iff hmail v)]
  exact and_congr_left' some_inj

/-- Deleting a user takes it out of the indexes. -/
theorem Indexed.drop (hindexed : Indexed s) (hu : s.Has id u) : Indexed (s.drop id u) := by
  obtain ⟨hn, hm⟩ := htyped.indexed_iff.mp hindexed
  exact (htyped.drop id u).indexed_iff.mpr
    ⟨hn.drop hu (drop_has_iff htyped) (drop_leads_byName htyped hu),
      hm.drop hu (drop_has_iff htyped) (drop_leads_byMail htyped hu)⟩

end

/-! ## Histories -/

theorem generateUserId_ne_empty (now : ℤ) (random : String) : generateUserId now random ≠ "" := by
  simp [generateUserId]

/-- One call keeps the kinds of the keys apart, whether it is clean or not. -/
theorem Typed.step (htyped : Typed s) (bcrypt : Bcrypt) {call : Call} (hid : call.ProperId) :
    Typed (call.run bcrypt s) := by
  cases call with
  | createUser userData random now =>
    rw [Call.run, createUser_eq_put]
    exact htyped.put hid (orDefault_ne_falsy _ (generateUserId_ne_empty now random))
  | updateUser userId updates =>
    rw [Call.run]
    by_cases h : ∃ u, s.Has userId u
    · obtain ⟨u, hu⟩ := h
      rw [updateUser_of_has hu]
      exact htyped.set hu _
    · rwa [updateUser_of_not_has (not_exists.mp h)]
  | deleteUser userId =>
    rw [Call.run]
    by_cases h : ∃ u, s.Has userId u
    · obtain ⟨u, hu⟩ := h
      rw [deleteUser_eq_drop hu]
      exact htyped.drop userId u
    · rwa [deleteUser_of_not_has (not_exists.mp h)]

/-- **One call keeps the indexes right exactly when it is clean.** -/
theorem Indexed.step_iff (hindexed : Indexed s) (htyped : Typed s) (bcrypt : Bcrypt) {call : Call}
    (hid : call.ProperId) : Indexed (call.run bcrypt s) ↔ call.Clean bcrypt s := by
  cases call with
  | createUser userData random now =>
    rw [Call.run, createUser_eq_put]
    exact hindexed.put_iff htyped hid (orDefault_ne_falsy _ (generateUserId_ne_empty now random))
  | updateUser userId updates =>
    rw [Call.run, Call.Clean]
    by_cases h : ∃ u, s.Has userId u
    · obtain ⟨u, hu⟩ := h
      rw [updateUser_of_has hu, hindexed.set_iff htyped hu]
      exact ⟨fun hkeeps v hv => hv.unique hu ▸ hkeeps, fun hkeeps => hkeeps u hu⟩
    · rw [updateUser_of_not_has (not_exists.mp h)]
      exact iff_of_true hindexed (fun u hu => absurd ⟨u, hu⟩ h)
  | deleteUser userId =>
    rw [Call.run, Call.Clean, iff_true]
    by_cases h : ∃ u, s.Has userId u
    · obtain ⟨u, hu⟩ := h
      rw [deleteUser_eq_drop hu]
      exact hindexed.drop htyped hu
    · rwa [deleteUser_of_not_has (not_exists.mp h)]

/-- Each call of a history is clean in the store it runs on. -/
def CleanRun (bcrypt : Bcrypt) : Store → List Call → Prop
  | _, [] => True
  | s, call :: calls => call.Clean bcrypt s ∧ CleanRun bcrypt (call.run bcrypt s) calls

theorem Indexed.run_iff (bcrypt : Bcrypt) {calls : List Call}
    (hids : ∀ call ∈ calls, call.ProperId) (hindexed : Indexed s) (htyped : Typed s) :
    (∀ part, part <+: calls → Indexed (part.foldl (Call.run bcrypt) s)) ↔
      CleanRun bcrypt s calls := by
  induction calls generalizing s with
  | nil => simpa [CleanRun] using hindexed
  | cons call calls ih =>
    have hid := hids call List.mem_cons_self
    have hrest := fun c hc => hids c (List.mem_cons_of_mem call hc)
    have hstep := hindexed.step_iff htyped bcrypt hid
    constructor
    · intro h
      have hcall : Indexed (call.run bcrypt s) := h [call] (by simp)
      exact ⟨hstep.mp hcall, (ih hrest hcall (htyped.step bcrypt hid)).mp
        (fun part hpart => h (call :: part) (List.cons_prefix_cons.mpr ⟨rfl, hpart⟩))⟩
    · rintro ⟨hclean, hcleans⟩ part hpart
      cases part with
      | nil => exact hindexed
      | cons first part =>
        obtain ⟨rfl, htail⟩ := List.cons_prefix_cons.mp hpart
        exact (ih hrest (hstep.mpr hclean) (htyped.step bcrypt hid)).mpr hcleans part htail

theorem empty_ne (key : String) (value : Value) : empty key ≠ some value := nofun

theorem typed_empty : Typed empty :=
  ⟨fun _ _ => empty_ne _ _, fun _ _ => empty_ne _ _, fun _ => empty_ne _ _⟩

theorem indexed_empty : Indexed empty :=
  typed_empty.indexed_iff.mpr
    ⟨⟨fun _ _ _ h _ => absurd h (empty_ne _ _), fun _ _ h => absurd h (empty_ne _ _)⟩,
      ⟨fun _ _ _ h _ => absurd h (empty_ne _ _), fun _ _ h => absurd h (empty_ne _ _)⟩⟩

/-- **When the indexes are right.** Over any history of `createUser`, `updateUser`
and `deleteUser` from an empty store, the indexes are right after every part of
it if and only if each created user takes no identifier, name or address of
another, and no update changes a name or an address. -/
theorem indexed_run_iff (bcrypt : Bcrypt) (calls : List Call)
    (hids : ∀ call ∈ calls, call.ProperId) :
    (∀ part, part <+: calls → Indexed (runCalls bcrypt part)) ↔
      CleanRun bcrypt Store.empty calls :=
  indexed_empty.run_iff bcrypt hids typed_empty

/-- The creation of a user without an address. -/
def create (id username : String) : Call :=
  .createUser ⟨some id, some username, none, "secret", none, none⟩ "" 0

/-- The change of a user's name. -/
def rename (id username : String) : Call :=
  .updateUser id ⟨none, some (some username), none, none, none, none, none, none⟩

/-- An identifier that begins with neither `u` nor `e` is proper. -/
theorem proper_of_head {id : String} (hu : id.toList.head? ≠ some 'u')
    (he : id.toList.head? ≠ some 'e') : Proper id := by
  refine fun s => ⟨?_, ?_⟩
  · rintro rfl
    exact hu (by simp)
  · rintro rfl
    exact he (by simp)

/-- Two users are created, one gets another role, and the other one is deleted. -/
def createTwo : List Call :=
  [create "1" "bob", create "2" "ann",
    .updateUser "1" ⟨none, none, none, none, some "admin", none, none, none⟩, .deleteUser "2"]

theorem indexed_run_createTwo :
    (∀ call ∈ createTwo, call.ProperId) ∧
      ∀ part, part <+: createTwo → Indexed (runCalls .plain part) := by
  have hids : ∀ call ∈ createTwo, call.ProperId := by
    simp only [createTwo, create, List.forall_mem_cons, Call.ProperId]
    exact ⟨proper_of_head (by decide) (by decide), proper_of_head (by decide) (by decide),
      proper_of_head (by decide) (by decide), proper_of_head (by decide) (by decide), by simp⟩
  refine ⟨hids, (indexed_run_iff .plain createTwo hids).mpr ⟨?_, ?_, ?_, trivial, trivial⟩⟩
  · exact ⟨fun _ h => absurd h (empty_ne _ _), fun _ h => absurd h (empty_ne _ _),
      fun _ _ _ h => absurd h (empty_ne _ _)⟩
  · refine ⟨fun v h => ?_, fun id h => ?_, fun _ _ h => by cases h⟩
    · have hnone : (create "1" "bob").run .plain .empty (userKey "2") = none := by decide +kernel
      exact absurd (hnone.symm.trans h) (by simp)
    · have hnone : (create "1" "bob").run .plain .empty (usernameKey "ann") = none := by
        decide +kernel
      exact absurd (hnone.symm.trans h) (by simp)
  · exact fun _ _ => ⟨rfl, rfl⟩

/-- **A renamed user is lost.** The record of user `1` has the new name, and the
index has the old one. -/
theorem not_indexed_run_rename :
    ¬Indexed (runCalls .plain [create "1" "bob", rename "1" "rob"]) ∧
      getUserByUsername "rob" (runCalls .plain [create "1" "bob", rename "1" "rob"]) =
        .ok none := by
  refine ⟨fun h => ?_, by decide +kernel⟩
  have hnames := h.names "1"
    ((newUser .plain ⟨some "1", some "rob", none, "secret", none, none⟩ "" 0)) (by decide +kernel)
  revert hnames
  decide +kernel

end ControlPlane.UserManager
