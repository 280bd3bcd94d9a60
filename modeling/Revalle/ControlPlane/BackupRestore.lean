import Revalle.ControlPlane.BackupManager

/-!
# What a restore reproduces

A restore brings back neither the set `nodes:active` nor the indexes of the users. So after a
restore into an empty store

* all users and all configuration are listed as before (but for a user with the identifier
  `__proto__`, which is no property of the object that the backup is);
* no node is listed, whatever was before;
* no user is found by name.
-/

namespace ControlPlane.BackupManager

open List Option

open NodeManager (Node Listing)
open UserManager (User userKey usernameKey)

/-! ## Objects -/

section Objects

variable {V W : Type}

theorem toObject_concat (l : List (String × V)) (e : String × V) :
    toObject (l ++ [e]) = assign (toObject l) e := by
  simp [toObject, foldl_append]

theorem entriesOf_concat (f : Family V) (keys : List String) (k : String) :
    entriesOf f (keys ++ [k]) = entriesOf f keys ++ ((f k).map (fun v => (k, v))).toList := by
  cases hk : f k <;> simp [entriesOf, hk]

/-- **What the object has that is made of the keys of a family.** -/
theorem get_toObject_entriesOf (f : Family V) (keys : List String) (k : String) :
    (toObject (entriesOf f keys)).get k =
      if k ∈ keys ∧ k ≠ "__proto__" then (f k).map (fun v => (k, v)) else none := by
  induction keys using reverseRecOn with
  | nil => simp [entriesOf, toObject, KeyedList.get, KeyedList.empty]
  | append_singleton keys k0 ih =>
    rw [entriesOf_concat]
    cases hk0 : f k0 with
    | none =>
      rw [map_none, toList_none, append_nil, ih]
      by_cases hk : k = k0
      · subst hk
        simp [hk0]
      · simp [hk]
    | some v =>
      rw [map_some, toList_some, toObject_concat, assign]
      by_cases hproto : k0 = "__proto__"
      · rw [if_pos hproto, ih]
        by_cases hk : k = k0
        · simp [hk, hproto]
        · simp [hk]
      · rw [if_neg hproto, KeyedList.get_set]
        by_cases hk : k = k0
        · subst hk
          simp [hproto, hk0]
        · rw [ih]
          simp [hk]

theorem map_entriesOf (f : Family V) (g : V → W) (keys : List String) :
    (entriesOf f keys).map (fun x => (x.1, g x.2)) = entriesOf (fun k => (f k).map g) keys := by
  rw [entriesOf, map_filterMap, entriesOf]
  refine filterMap_congr (fun k _ => ?_)
  cases f k <;> rfl

theorem foldl_update_apply (write : V → W) (l : List (String × V)) (hl : (l.map Prod.fst).Nodup)
    (f : Family W) (k : String) :
    l.foldl (fun (f : Family W) e => Function.update f e.1 (some (write e.2))) f k =
      match l.find? (fun e => e.1 = k) with
      | some e => some (write e.2)
      | none => f k := by
  induction l generalizing f with
  | nil => rfl
  | cons e l ih =>
    rw [map_cons, nodup_cons] at hl
    rw [foldl_cons, ih hl.2, find?_cons]
    by_cases hk : e.1 = k
    · have hnone : l.find? (fun e => decide (e.1 = k)) = none := by
        refine find?_eq_none.mpr (fun x hx => ?_)
        have : x.1 ≠ k := fun hxk => hl.1 (hk ▸ hxk ▸ mem_map_of_mem hx)
        simpa using this
      subst hk
      simp only [hnone, decide_true, Function.update_self]
    · simp only [hk, decide_false]
      rw [Function.update_of_ne (Ne.symm hk)]

theorem writeAll_empty_apply (write : V → W) (object : Object V) (k : String) :
    writeAll (fun _ => none) write object k = (object.get k).map (fun e => write e.2) := by
  rw [writeAll, foldl_update_apply write object.toList object.nodup]
  show (match object.get k with
    | some e => some (write e.2)
    | none => none) = _
  cases object.get k <;> rfl

theorem finite_writeAll (write : V → W) (object : Object V) :
    FiniteKeys (writeAll (fun _ => none) write object) := by
  refine (object.toList.map Prod.fst).toFinset.finite_toSet.subset (fun k hk => ?_)
  cases hget : object.get k with
  | none =>
    refine absurd ?_ hk
    rw [writeAll_empty_apply, hget]
    rfl
  | some e =>
    obtain ⟨hmem, rfl⟩ := KeyedList.get_eq_some_iff.mp hget
    exact mem_toFinset.mpr (mem_map_of_mem hmem)

end Objects

/-! ## The users that are read -/

section Users

variable {J : Type} {s : Redis J}

/-- The record under an identifier. -/
def accountAt (s : Redis J) (id : String) : Option Account :=
  match s.user id with
  | some (.record account) => some account
  | _ => none

/-- The identifiers that are read have records. -/
def NoText (s : Redis J) : Prop :=
  ∀ id t, s.user id = some (.text t) → isIndexKey ("user:" ++ id) = true

theorem readUsers_eq {ids : List String} (h : ∀ id ∈ ids, ∀ t, s.user id ≠ some (.text t)) :
    readUsers s ids = .ok (entriesOf (accountAt s) ids) := by
  induction ids with
  | nil => rfl
  | cons id ids ih =>
    have hids := ih (fun x hx => h x (mem_cons_of_mem _ hx))
    have hcons : entriesOf (accountAt s) (id :: ids) =
        ((accountAt s id).map (fun v => (id, v))).toList ++ entriesOf (accountAt s) ids := by
      rw [entriesOf, filterMap_cons]
      cases accountAt s id <;> rfl
    rw [readUsers, hids, hcons]
    cases hid : s.user id with
    | none => simp [getUser, accountAt, hid]
    | some value =>
      cases value with
      | record account => simp [getUser, accountAt, hid]
      | text t => exact absurd hid (h id mem_cons_self t)

variable (h : NoText s)
include h

theorem NoText.readUsers (keys : List String) :
    readUsers s (userIds keys) = .ok (entriesOf (accountAt s) (userIds keys)) := by
  refine readUsers_eq (fun id hid t hs => ?_)
  have := (mem_filter.mp hid).2
  simp [h id t hs] at this

theorem NoText.getAllUsers (keys : Replies s) :
    getAllUsers keys = .ok ((userIds keys.user.list).filterMap
      (fun k => (accountAt s k).map Account.profile)) := by
  rw [BackupManager.getAllUsers, h.readUsers]
  show Except.ok ((entriesOf _ _).map _) = _
  rw [entriesOf, map_filterMap]
  congr 1
  refine filterMap_congr (fun k _ => ?_)
  cases accountAt s k <;> rfl

/-- The users of the backup. -/
theorem NoText.backupUsers (keys : Replies s) : backupUsers keys = .ok (toObject (entriesOf
      (fun k => (accountAt s k).map Account.withoutPassword) (userIds keys.user.list))) := by
  rw [BackupManager.backupUsers, h.readUsers]
  show Except.ok (toObject ((entriesOf _ _).map _)) = _
  rw [map_entriesOf]

theorem accountAt_ne_none (keys : Replies s) {id : String} (hid : id ∈ userIds keys.user.list) :
    ∃ account, accountAt s id = some account := by
  obtain ⟨hmem, hindex⟩ := mem_filter.mp hid
  unfold accountAt
  cases hs : s.user id with
  | none => exact absurd hs ((keys.user.mem_iff id).mp hmem)
  | some value =>
    cases value with
    | record account => exact ⟨account, rfl⟩
    | text t => simp [h id t hs] at hindex

end Users

theorem Sound.noText {J : Type} {m : Managers J} (h : Sound m) : NoText m.redis := by
  intro id t hs
  obtain ⟨value, hvalue, ht⟩ := map_eq_some_iff.mp hs
  cases value with
  | record u => exact absurd ht (by simp [UserValue.of])
  | text t' => exact h.text _ _ hvalue

/-! ## The restored state -/

section Restored

variable {J : Type} {s : Redis J} (h : NoText s) (keys : Replies s)

/-- The backup of a state. -/
def backupOf (keys : Replies s) : Backup J :=
  ⟨backupNodes keys, toObject (entriesOf (fun k => (accountAt s k).map Account.withoutPassword)
    (userIds keys.user.list)), backupConfig keys⟩

/-- The state that is restored from it, into an empty store. -/
def restored (keys : Replies s) : Redis J := restoreBackup (backupOf keys) (.empty J)

include h in
theorem createBackup_eq : createBackup keys = .ok (backupOf keys) := by
  rw [createBackup, h.backupUsers]
  rfl

theorem restored_user (id : String) : (restored keys).user id =
      if id ∈ userIds keys.user.list ∧ id ≠ "__proto__" then
        (accountAt s id).map (fun a => .record a.withoutPassword) else none := by
  show writeAll (fun _ => none) UserValue.record (backupOf keys).users id = _
  rw [writeAll_empty_apply, backupOf, get_toObject_entriesOf]
  split
  · cases accountAt s id <;> rfl
  · rfl

theorem restored_noText : NoText (restored keys) := by
  intro id t hs
  rw [restored_user] at hs
  split at hs
  · cases haccount : accountAt s id <;> simp [haccount] at hs
  · exact nomatch hs

/-- No user is found by name: the indexes are not there. -/
theorem getUserByUsername_restored (username : String) :
    getUserByUsername username (restored keys) = .ok none := by
  have hindex : isIndexKey ("user:" ++ ("username:" ++ username)) = true := by
    exact isIndexKey_usernameKey username
  have hnone : (restored keys).user ("username:" ++ username) = none := by
    rw [restored_user, if_neg]
    rintro ⟨hmem, -⟩
    have := (mem_filter.mp hmem).2
    simp [hindex] at this
  rw [getUserByUsername, hnone]

theorem getAllNodes_restored (listing : Listing) : getAllNodes listing (restored keys) = [] := by
  have hlist : listing.list ∅ = [] := by
    refine eq_nil_iff_forall_not_mem.mpr (fun id hid => ?_)
    exact absurd ((listing.mem_iff ∅ id).mp hid) (Finset.notMem_empty id)
  show (listing.list ∅).filterMap _ = []
  rw [hlist]
  rfl

theorem getAllConfigs_restored (keys' : Replies (restored keys)) (k : String) :
    (getAllConfigs keys').get k = (getAllConfigs keys).get k := by
  have hconfig : ∀ k, (restored keys).config k =
      if k ∈ keys.config.list ∧ k ≠ "__proto__" then s.config k else none := by
    intro k
    show writeAll (fun _ => none) id (backupOf keys).config k = _
    rw [writeAll_empty_apply]
    show ((toObject (entriesOf s.config keys.config.list)).get k).map _ = _
    rw [get_toObject_entriesOf]
    split
    · cases s.config k <;> rfl
    · rfl
  rw [getAllConfigs, getAllConfigs, get_toObject_entriesOf, get_toObject_entriesOf]
  have hmem := keys'.config.mem_iff k
  rw [hconfig] at hmem ⊢
  by_cases hold : k ∈ keys.config.list ∧ k ≠ "__proto__"
  · rw [if_pos hold] at hmem ⊢
    rw [if_pos ⟨hmem.mpr ((keys.config.mem_iff k).mp hold.1), hold.2⟩]
    exact (if_pos hold).symm
  · rw [if_neg hold] at hmem ⊢
    rw [if_neg hold, if_neg (fun hnew => hmem.mp hnew.1 rfl)]

include h in
/-- The users that are listed, before and after. -/
theorem getAllUsers_restored (keys' : Replies (restored keys)) :
    ∃ users users', getAllUsers keys = .ok users ∧ getAllUsers keys' = .ok users' ∧
      (users'.Perm users ↔ s.user "__proto__" = none) := by
  refine ⟨_, _, h.getAllUsers keys, (restored_noText keys).getAllUsers keys', ?_⟩
  have hids : ∀ id, id ∈ userIds keys'.user.list ↔
      id ∈ userIds keys.user.list ∧ id ≠ "__proto__" := by
    intro id
    rw [userIds, mem_filter, keys'.user.mem_iff, restored_user]
    constructor
    · rintro ⟨hne, -⟩
      by_contra hold
      exact hne (if_neg hold)
    · intro hold
      obtain ⟨account, haccount⟩ := accountAt_ne_none h keys hold.1
      rw [if_pos hold, haccount]
      exact ⟨by simp, (mem_filter.mp hold.1).2⟩
  -- the identifiers are the same, `__proto__` apart
  have hperm : (userIds keys'.user.list).Perm
      ((userIds keys.user.list).filter (· ≠ "__proto__")) := by
    refine (perm_ext_iff_of_nodup (keys'.user.nodup.filter _)
      ((keys.user.nodup.filter _).filter _)).mpr (fun id => ?_)
    show id ∈ userIds keys'.user.list ↔ _
    rw [hids, mem_filter, decide_eq_true_eq]
    rfl
  have hsame : (userIds keys'.user.list).filterMap
        (fun k => (accountAt (restored keys) k).map Account.profile) =
      (userIds keys'.user.list).filterMap (fun k => (accountAt s k).map Account.profile) := by
    refine filterMap_congr (fun id hid => ?_)
    obtain ⟨account, haccount⟩ := accountAt_ne_none h keys ((hids id).mp hid).1
    have hnew : accountAt (restored keys) id = some account.withoutPassword := by
      rw [accountAt, restored_user, if_pos ((hids id).mp hid), haccount]
      rfl
    rw [hnew, haccount]
    rfl
  rw [hsame]
  have hproto : "__proto__" ∈ userIds keys.user.list ↔ s.user "__proto__" ≠ none := by
    rw [userIds, mem_filter, keys.user.mem_iff]
    exact and_iff_left (by decide +kernel)
  constructor
  · intro hp
    by_contra hne
    have hlength := ((hperm.filterMap _).symm.trans hp).length_eq
    have hsome : ∀ id ∈ userIds keys.user.list,
        ((accountAt s id).map Account.profile).isSome = true := by
      intro id hid
      obtain ⟨account, haccount⟩ := accountAt_ne_none h keys hid
      rw [haccount]
      rfl
    rw [length_filterMap_eq_countP, length_filterMap_eq_countP, countP_eq_length.mpr hsome,
      countP_eq_length.mpr (fun id hid => hsome id (mem_filter.mp hid).1)] at hlength
    have hall := length_filter_eq_length_iff.mp hlength "__proto__" (hproto.mpr hne)
    simp at hall
  · intro hnone
    have hfilter : (userIds keys.user.list).filter (· ≠ "__proto__") = userIds keys.user.list := by
      refine filter_eq_self.mpr (fun id hid => ?_)
      refine decide_eq_true (fun heq => ?_)
      subst heq
      exact hproto.mp hid hnone
    rw [hfilter] at hperm
    exact hperm.filterMap _

theorem exists_replies_restored : Nonempty (Replies (restored keys)) := by
  obtain ⟨nodes⟩ := (finite_writeAll id (backupOf keys).nodes).exists_reply
  obtain ⟨users⟩ := (finite_writeAll UserValue.record (backupOf keys).users).exists_reply
  obtain ⟨config⟩ := (finite_writeAll id (backupOf keys).config).exists_reply
  exact ⟨⟨nodes, users, config⟩⟩

theorem backupOf_users_password : ∀ e ∈ (backupOf keys).users.toList, e.2.password = none := by
  intro e he
  have hget := KeyedList.get_eq_some_iff.mpr ⟨he, rfl⟩
  rw [backupOf, get_toObject_entriesOf] at hget
  split at hget
  · cases haccount : accountAt s e.1 with
    | none => simp [haccount] at hget
    | some account =>
      simp only [haccount, map_some, some.injEq] at hget
      rw [← hget]
      rfl
  · exact nomatch hget

end Restored

/-- **What a backup and its restore into an empty store reproduce**, for every state that the
managers bring about and in whatever order the keys are listed. The backup succeeds and has
no password. The configuration is the same, and the list of all users is the same unless one
has the identifier `__proto__`. But the nodes are the same only if none was listed, and a
user who is found by name is found no more. -/
theorem backup_restored {J : Type} (bcrypt : UserManager.Bcrypt) (steps : List (Step J)) :
    Nonempty (Replies (runSteps bcrypt steps).redis) ∧
    ∀ keys : Replies (runSteps bcrypt steps).redis, ∃ backup, createBackup keys = .ok backup ∧
      (∀ e ∈ backup.users.toList, e.2.password = none) ∧
      Nonempty (Replies (restoreBackup backup (.empty J))) ∧
      (∀ listing listing',
        (getAllNodes listing' (restoreBackup backup (.empty J))).Perm
            (getAllNodes listing (runSteps bcrypt steps).redis) ↔
          getAllNodes listing (runSteps bcrypt steps).redis = []) ∧
      (∀ listing listing',
        (getAvailableNodes listing' (restoreBackup backup (.empty J))).Perm
            (getAvailableNodes listing (runSteps bcrypt steps).redis) ↔
          getAvailableNodes listing (runSteps bcrypt steps).redis = []) ∧
      (∀ username,
        (getUserByUsername username (restoreBackup backup (.empty J))).map
            (Option.map Account.profile) =
            (getUserByUsername username (runSteps bcrypt steps).redis).map
              (Option.map Account.profile) ↔
          getUserByUsername username (runSteps bcrypt steps).redis = .ok none) ∧
      ∀ keys' : Replies (restoreBackup backup (.empty J)),
        (∃ users users', getAllUsers keys = .ok users ∧ getAllUsers keys' = .ok users' ∧
          (users'.Perm users ↔ (runSteps bcrypt steps).redis.user "__proto__" = none)) ∧
        ∀ k, (getAllConfigs keys').get k = (getAllConfigs keys).get k := by
  have hsound := sound_run bcrypt steps
  refine ⟨hsound.exists_replies, fun keys => ⟨backupOf keys, createBackup_eq hsound.noText keys,
    backupOf_users_password keys, exists_replies_restored keys, fun l l' => ?_, fun l l' => ?_,
    fun username => ?_, fun keys' => ⟨getAllUsers_restored hsound.noText keys keys',
      getAllConfigs_restored keys keys'⟩⟩⟩
  · rw [show getAllNodes l' (restoreBackup (backupOf keys) (.empty J)) = [] from
      getAllNodes_restored keys l']
    rw [List.nil_perm]
  · have hnil : getAvailableNodes l' (restoreBackup (backupOf keys) (.empty J)) = [] := by
      show (getAllNodes l' (restored keys)).filter _ = []
      rw [getAllNodes_restored]
      rfl
    rw [hnil, List.nil_perm]
  · rw [show getUserByUsername username (restoreBackup (backupOf keys) (.empty J)) = .ok none from
      getUserByUsername_restored keys username]
    cases getUserByUsername username (runSteps bcrypt steps).redis with
    | error e => simp [Except.map]
    | ok o => cases o <;> simp [Except.map]

/-- A node and a user. -/
def nodeAndUser : List (Step String) :=
  [.node (.registerNode ⟨some "n", none, none, none, none⟩ "" 0),
    .user (.createUser ⟨some "1", some "ann", none, "secret", none, none⟩ "" 0)]

/-- **They are not found after a restore**, whatever the order of keys and members. -/
theorem not_restored :
    (getAllNodes .sorted (runSteps .plain nodeAndUser).redis).map Node.id = ["n"] ∧
      (getUserByUsername "ann" (runSteps .plain nodeAndUser).redis).toOption.bind
        (Option.map (fun a => a.profile.id)) = some "1" ∧
      ∀ (keys : Replies (runSteps .plain nodeAndUser).redis) (backup : Backup String),
        createBackup keys = .ok backup →
          (∀ listing, getAllNodes listing (restoreBackup backup (.empty String)) = []) ∧
          getUserByUsername "ann" (restoreBackup backup (.empty String)) = .ok none := by
  refine ⟨by decide +kernel, by decide +kernel, fun keys backup hbackup => ?_⟩
  rw [createBackup_eq (sound_run .plain nodeAndUser).noText keys] at hbackup
  obtain rfl := Except.ok.inj hbackup
  exact ⟨getAllNodes_restored keys, getUserByUsername_restored keys "ann"⟩

end ControlPlane.BackupManager
