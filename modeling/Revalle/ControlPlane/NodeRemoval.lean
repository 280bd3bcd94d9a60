import Revalle.ControlPlane.NodePrograms

/-!
# Removing a node among other calls

`removeNode` deletes the record of a node, and then takes the node out of the set and out
of the sorted set. A call that has read the record before may write after that: a heartbeat
puts the node back into `nodes:load` (`score_left_of_heartbeat`). Nothing is left if every
other call, when the record is deleted, does nothing more for a node without a record
(`absent_of_removed`), as a call that has not read the record yet.
-/

namespace ControlPlane.NodeManager.Redis

open Function List Shm Falsy

/-! ## The health check, command by command -/

/-- The loop of `getAllNodes`. -/
def getNodes : List String → Prog Redis (List Node)
  | [] => return []
  | id :: ids => do
    let node ← getNode id
    let nodes ← getNodes ids
    return node.toList ++ nodes

def getAllNodes (listing : Listing) : Prog Redis (List Node) := do
  getNodes (← Prog.load fun s => listing.list s.active)

/-- The body of the loop of `checkNodeHealth`. The answer is whether the loop goes on: an
error that is not caught ends it. -/
def checkNode (now : ℤ) (answers : String → Bool) (node : Node) : Prog Redis Bool :=
  if stale now node.lastHeartbeat then
    if node.status = .active then do
      if ← updateNode node.id fun n => { n with status := .inactive, health := "unhealthy" } then
        Prog.store (sRem node.id)
        return true
      else return false
    else return true
  else if answers node.id then
    if node.status ≠ .active then do
      -- the error is caught, and the `catch` does nothing to a node that is not active
      if ← updateNode node.id fun n => { n with status := .active, health := "healthy" } then
        Prog.store (sAdd node.id)
      return true
    else return true
  else if node.status = .active then updateNode node.id fun n => { n with health := "unhealthy" }
  else return true

def checkNodes (now : ℤ) (answers : String → Bool) : List Node → Prog Redis Bool
  | [] => return true
  | node :: nodes => do
    if ← checkNode now answers node then checkNodes now answers nodes else return false

def checkNodeHealth (listing : Listing) (now : ℤ) (answers : String → Bool) :
    Prog Redis Bool := do
  checkNodes now answers (← getAllNodes listing)

/-! ## Calls under way -/

inductive Request where
  | call (call : Call)
  | checkNodeHealth (listing : Listing) (now : ℤ) (answers : String → Bool)

def Request.program : Request → Prog Redis Bool
  | .call c => c.program
  | .checkNodeHealth listing now answers => Redis.checkNodeHealth listing now answers

/-- The request is to register node `id`. -/
def Request.Registers (id : String) : Request → Prop
  | .call (.registerNode nodeData generated _) => orDefault nodeData.id generated = id
  | _ => False

instance (id : String) (request : Request) : Decidable (request.Registers id) := by
  unfold Request.Registers
  split <;> infer_instance

/-- **Any number of calls**, whose accesses are the commands of Redis. -/
def system (P : Type) (s : Redis) : System Redis P Unit Request where
  init := s
  start _ := ()
  call _ request _ _ := some ((), do discard request.program)

/-- The calls when node `id` is not registered any more. -/
abbrev unregistered (P : Type) (s : Redis) (id : String) : System Redis P Unit Request :=
  (system P s).restrict fun _ request _ _ => ¬ request.Registers id

/-- **A removal of the node by `p`**, from its first command to its end. -/
structure Removal {P : Type} [DecidableEq P] (s : Redis) (id : String) (p : P)
    (c c' : Config Redis P Unit) : Prop where
  called : c.thread p = .running () (do discard (removeNode id))
  moves : ∃ ms, (unregistered P s id).runIn (fun _ => True) c (.advance p 0 :: ms) = some c'
  finished : c'.thread p = .idle ()

/-- Nothing is left of the node. -/
def Absent (id : String) (s : Redis) : Prop :=
  s.node id = none ∧ id ∉ s.active ∧ s.load id = none

/-- The node has no record, and it is not put anywhere. -/
def Fades (id : String) (s s' : Redis) : Prop :=
  s'.node id = none ∧ (id ∈ s'.active → id ∈ s.active) ∧ (s.load id = none → s'.load id = none)

variable {P α β : Type} {id : String} {s s' s'' : Redis}

/-- **The program does nothing for a node without a record**, and `Q` holds of its result. -/
def Leaves (id : String) (Q : α → Prop) : Prog Redis α → Prop
  | .ret a => Q a
  | .act upd k => ∀ s, s.node id = none → Fades id s (upd s) ∧ Leaves id Q (k s)
  | .pick k => ∀ n, Leaves id Q (k n)
  | _ => True

/-- What is left of a call that is under way. -/
def rest : Thread Redis Unit → Prog Redis Unit
  | .idle h => .ret h
  | .running _ x => x

/-- The call does nothing more for a node without a record. -/
def Idles (id : String) (t : Thread Redis Unit) : Prop := Leaves id (fun _ => True) (rest t)

/-- On every path of the program, `upd` is one of the accesses. -/
def Reaches (upd : Redis → Redis) : Prog Redis Unit → Prop
  | .act upd' k => upd' = upd ∨ ∀ s, Reaches upd (k s)
  | .pick k => ∀ n, Reaches upd (k n)
  | _ => False

/-- The call has yet to make the access. -/
def Ahead (upd : Redis → Redis) (t : Thread Redis Unit) : Prop := Reaches upd (rest t)

theorem Fades.refl (h : s.node id = none) : Fades id s s := ⟨h, fun h => h, fun h => h⟩

theorem Fades.trans (h : Fades id s s') (h' : Fades id s' s'') : Fades id s s'' :=
  ⟨h'.1, fun hmem => h.2.1 (h'.2.1 hmem), fun hload => h'.2.2 (h.2.2 hload)⟩

/-! ## The commands without a record -/

section

variable {nodeId : String}

theorem update_none {γ : Type} {f : String → Option γ} (h : f id = none) :
    update f nodeId none id = none := by
  by_cases hid : id = nodeId
  · rw [hid, update_self]
  · rw [update_of_ne hid, h]

variable (h : s.node id = none)
include h

theorem fades_del : Fades id s (del nodeId s) := ⟨update_none h, fun h => h, fun h => h⟩

theorem fades_sRem : Fades id s (sRem nodeId s) := ⟨h, Finset.mem_of_mem_erase, fun h => h⟩

theorem fades_zRem : Fades id s (zRem nodeId s) := ⟨h, fun h => h, update_none⟩

variable (hne : nodeId ≠ id)
include hne

theorem fades_set {node : Node} : Fades id s (set nodeId node s) :=
  ⟨(update_of_ne hne.symm ..).trans h, fun h => h, fun h => h⟩

theorem fades_sAdd : Fades id s (sAdd nodeId s) :=
  ⟨h, fun hmem => (Finset.mem_insert.mp hmem).resolve_left hne.symm, fun h => h⟩

theorem fades_zAdd {score : ℚ} : Fades id s (zAdd nodeId score s) :=
  ⟨h, fun h => h, (update_of_ne hne.symm ..).trans⟩

end

/-! ## The calls without a record -/

theorem Leaves.bind {Q : α → Prop} {R : β → Prop} {x : Prog Redis α} {f : α → Prog Redis β}
    (h : Leaves id Q x) (hf : ∀ a, Q a → Leaves id R (f a)) : Leaves id R (x >>= f) := by
  induction x with
  | ret a => exact hf a h
  | act upd k ih => exact fun s hs => ⟨(h s hs).1, ih s (h s hs).2⟩
  | pick k ih => exact fun n => ih n (h n)
  | stall => trivial
  | abort => trivial

/-- A read finds no record. -/
theorem leaves_getNode (nodeId : String) :
    Leaves id (fun node => node ≠ none → nodeId ≠ id) (getNode nodeId) := by
  intro s hs
  refine ⟨.refl hs, ?_⟩
  rintro hnode rfl
  exact hnode hs

theorem leaves_updateNode {nodeId : String} {updates : Node → Node} :
    Leaves id (fun found => found = true → nodeId ≠ id) (updateNode nodeId updates) := by
  refine (leaves_getNode nodeId).bind fun node hnode => ?_
  cases node with
  | none => exact fun h => absurd h (by simp)
  | some node =>
    have hne := hnode (by simp)
    exact fun s hs => ⟨fades_set hs hne, fun _ => hne⟩

/-- Whatever the result is. -/
theorem Leaves.true {Q : α → Prop} {x : Prog Redis α} (h : Leaves id Q x) :
    Leaves id (fun _ => True) x :=
  x.bind_ret ▸ h.bind fun _ _ => trivial

theorem leaves_checkNode (now : ℤ) (answers : String → Bool) (node : Node) :
    Leaves id (fun _ => True) (checkNode now answers node) := by
  unfold checkNode
  split_ifs
  · refine leaves_updateNode.bind fun found _ => ?_
    cases found with
    | false => trivial
    | true => exact fun s hs => ⟨fades_sRem hs, trivial⟩
  · trivial
  · refine leaves_updateNode.bind fun found hfound => ?_
    cases found with
    | false => trivial
    | true => exact fun s hs => ⟨fades_sAdd hs (hfound rfl), trivial⟩
  · trivial
  · exact leaves_updateNode.true
  · trivial

theorem leaves_checkNodes (now : ℤ) (answers : String → Bool) (nodes : List Node) :
    Leaves id (fun _ => True) (checkNodes now answers nodes) := by
  induction nodes with
  | nil => trivial
  | cons node nodes ih =>
    refine (leaves_checkNode now answers node).bind fun goesOn _ => ?_
    cases goesOn with
    | false => trivial
    | true => exact ih

theorem leaves_getNodes (ids : List String) : Leaves id (fun _ => True) (getNodes ids) := by
  induction ids with
  | nil => trivial
  | cons nodeId ids ih => exact (leaves_getNode nodeId).bind fun _ _ => ih.bind fun _ _ => trivial

theorem leaves_call {call : Call} (h : ¬ (Request.call call).Registers id) :
    Leaves id (fun _ => True) call.program := by
  cases call with
  | registerNode nodeData generated now =>
    exact fun s hs => ⟨fades_set hs h, fun s hs => ⟨fades_sAdd hs h, fun s hs =>
      ⟨fades_zAdd hs h, trivial⟩⟩⟩
  | updateNode nodeId updates => exact leaves_updateNode.true
  | updateHeartbeat nodeId heartbeatData now =>
    refine (leaves_getNode nodeId).bind fun node hnode => ?_
    cases node with
    | none => trivial
    | some node => exact fun s hs => ⟨fades_zAdd hs (hnode (by simp)), leaves_updateNode.true⟩
  | removeNode nodeId =>
    exact fun s hs => ⟨fades_del hs, fun s hs => ⟨fades_sRem hs, fun s hs =>
      ⟨fades_zRem hs, trivial⟩⟩⟩

/-- **Every call but a registration does nothing for a node without a record.** -/
theorem leaves_program {request : Request} (h : ¬ request.Registers id) :
    Leaves id (fun _ => True) request.program := by
  cases request with
  | call call => exact leaves_call h
  | checkNodeHealth listing now answers =>
    refine Leaves.bind (Q := fun _ => True) ?_ fun nodes _ => leaves_checkNodes now answers nodes
    exact fun s hs => ⟨.refl hs, leaves_getNodes _⟩

/-! ## The removal -/

/-- The call of `p` has deleted the record, and it will delete what else there is of the node. -/
structure Removing (id : String) (p : P) (c : Config Redis P Unit) : Prop where
  node : c.mem.node id = none
  idles : ∀ q, Idles id (c.thread q)
  active : id ∈ c.mem.active → Ahead (sRem id) (c.thread p)
  load : c.mem.load id ≠ none → Ahead (zRem id) (c.thread p)

section

variable [DecidableEq P] {p : P} {c c' : Config Redis P Unit}

/-- A process goes on, with or without an access: one that was ahead of `p` is still ahead,
unless it was this one. -/
theorem Removing.update (h : Removing id p c) {q : P} {t : Thread Redis Unit} {s : Redis}
    (hf : Fades id c.mem s) (ht : Idles id t)
    (hp : ∀ upd, p = q → Ahead upd (c.thread q) → upd c.mem = s ∨ Ahead upd t) :
    Removing id p ⟨s, Function.update c.thread q t⟩ := by
  have hahead : ∀ upd, Ahead upd (c.thread p) →
      upd c.mem = s ∨ Ahead upd (Function.update c.thread q t p) := by
    intro upd ha
    by_cases hpq : p = q
    · subst hpq
      rw [update_self]
      exact hp upd rfl ha
    · rw [update_of_ne hpq]
      exact .inr ha
  refine ⟨hf.1, fun r => ?_, fun hmem => ?_, fun hmem => ?_⟩
  · by_cases hr : r = q
    · subst hr
      simpa using ht
    · simpa [hr] using h.idles r
  · refine (hahead _ (h.active (hf.2.1 hmem))).resolve_left ?_
    rintro rfl
    exact Finset.notMem_erase id _ hmem
  · refine (hahead _ (h.load fun hnone => hmem (hf.2.2 hnone))).resolve_left ?_
    rintro rfl
    exact hmem (update_self ..)

/-- **One move.** -/
theorem Removing.step (h : Removing id p c) {s : Redis} {m : Move P Request}
    (hm : (unregistered P s id).step c m = some c') :
    Removing id p c' ∧ Fades id c.mem c'.mem := by
  cases m with
  | invoke q request =>
    simp only [System.step] at hm
    split at hm
    · next hq =>
      obtain ⟨x, hcall, rfl⟩ := Option.map_eq_some_iff.mp hm
      obtain ⟨hreg, ⟨⟩⟩ := Option.ite_none_right_eq_some.mp hcall
      refine ⟨h.update (.refl h.node) ((leaves_program hreg).bind fun _ _ => trivial) ?_,
        .refl h.node⟩
      intro upd _ ha
      rw [hq] at ha
      exact ha.elim
    · cases hm
  | advance q n =>
    have hidles := h.idles q
    simp only [System.step] at hm
    split at hm
    · next hq =>
      cases hm
      refine ⟨h.update (.refl h.node) trivial fun upd _ ha => ?_, .refl h.node⟩
      rw [hq] at ha
      exact ha.elim
    · next upd k hq =>
      cases hm
      rw [hq] at hidles
      obtain ⟨hf, hk⟩ := hidles c.mem h.node
      refine ⟨h.update hf hk fun upd' _ ha => ?_, hf⟩
      rw [hq] at ha
      exact ha.imp (fun he => by rw [he]) fun ha => ha c.mem
    · next k hq =>
      cases hm
      rw [hq] at hidles
      refine ⟨h.update (.refl h.node) (hidles n) fun upd _ ha => .inr ?_, .refl h.node⟩
      rw [hq] at ha
      exact ha n
    · cases hm

/-- **Any number of moves.** -/
theorem Removing.run (h : Removing id p c) {s : Redis} {ms : List (Move P Request)}
    (hms : (unregistered P s id).runIn (fun _ => True) c ms = some c') :
    Removing id p c' ∧ Fades id c.mem c'.mem := by
  induction ms generalizing c with
  | nil =>
    cases hms
    exact ⟨h, .refl h.node⟩
  | cons m ms ih =>
    obtain ⟨c₁, hm, hms⟩ := Option.bind_eq_some_iff.mp hms
    obtain ⟨hc₁, hf⟩ := h.step hm
    obtain ⟨hc', hf'⟩ := ih hc₁ ((if_pos trivial).symm.trans hms)
    exact ⟨hc', hf.trans hf'⟩

/-- **Nothing is left of a removed node**, then and later, if every other call that is under way
when the record is deleted does nothing more for a node without a record. -/
theorem absent_of_removed {s : Redis} {c₁ c₂ : Config Redis P Unit} (h : Removal s id p c c₁)
    (hothers : ∀ q, q ≠ p → Idles id (c.thread q)) (ms : List (Move P Request))
    (hms : (unregistered P s id).runIn (fun _ => True) c₁ ms = some c₂) : Absent id c₂.mem := by
  obtain ⟨hcalled, ⟨during, hduring⟩, hfinished⟩ := h
  obtain ⟨c₀, hdel, hduring⟩ := Option.bind_eq_some_iff.mp hduring
  -- what is left of the call once the record is deleted
  let left : Prog Redis Unit := .act (sRem id) fun _ => .act (zRem id) fun _ => .ret ()
  have hc₀ : c₀ = ⟨del id c.mem, Function.update c.thread p (.running () left)⟩ := by
    simp only [System.step, hcalled] at hdel
    exact (Option.some.inj hdel).symm
  have hremoving : Removing id p c₀ := by
    rw [hc₀]
    refine ⟨update_self .., fun q => ?_, fun _ => ?_, fun _ => ?_⟩
    · by_cases hq : q = p
      · subst hq
        simp only [update_self]
        exact fun s hs => ⟨fades_sRem hs, fun s hs => ⟨fades_zRem hs, trivial⟩⟩
      · simpa [hq] using hothers q hq
    · simp [Ahead, rest, left, Reaches]
    · simp [Ahead, rest, left, Reaches]
  obtain ⟨hc₁, -⟩ := hremoving.run ((if_pos trivial).symm.trans hduring)
  obtain ⟨-, hnode, hactive, hload⟩ := hc₁.run hms
  refine ⟨hnode, fun hmem => ?_, hload (not_not.mp fun hmem => ?_)⟩
  · have hahead := hc₁.active (hactive hmem)
    rwa [hfinished] at hahead
  · have hahead := hc₁.load hmem
    rwa [hfinished] at hahead

end

/-- A call of a process. -/
def begin (p : Bool) : Move Bool Request :=
  .invoke p (.call (if p then .updateHeartbeat "a" ⟨some 5, none⟩ 1 else .removeNode "a"))

/-- A heartbeat that has not read the record when it is deleted. -/
theorem absent_of_removed_heartbeat : ∃ c c',
    (unregistered Bool (newcomer.run empty) "a").Reachable c ∧
      Removal (newcomer.run empty) "a" false c c' ∧ Absent "a" c'.mem := by
  obtain ⟨c, c', hc, hremoval, hothers⟩ : ∃ c c',
      (unregistered Bool (newcomer.run empty) "a").Reachable c ∧
        Removal (newcomer.run empty) "a" false c c' ∧ ∀ q, q ≠ false → Idles "a" (c.thread q) := by
    refine ⟨_, _, .run (.init trivial) [begin false, begin true] rfl,
      ⟨rfl, ⟨[.advance true 0, .advance false 0, .advance false 0, .advance true 0,
        .advance false 0], rfl⟩, rfl⟩, ?_⟩
    rintro (_ | _) hq
    · exact absurd rfl hq
    · have hleaves : Leaves "a" (fun _ => True)
          (Call.updateHeartbeat "a" ⟨some 5, none⟩ 1).program := leaves_call not_false
      exact hleaves.bind fun _ _ => trivial
  exact ⟨c, c', hc, hremoval, absent_of_removed hremoval hothers [] rfl⟩

/-- **A score is left** by a heartbeat that has read the record before. -/
theorem score_left_of_heartbeat : ∃ c c',
    (unregistered Bool (newcomer.run empty) "a").Reachable c ∧
      Removal (newcomer.run empty) "a" false c c' ∧ (∀ p, c'.thread p = .idle ()) ∧
      c'.mem.load "a" = some 5 := by
  refine ⟨_, _, .run (.init trivial) [begin true, .advance true 0, begin false] rfl,
    ⟨rfl, ⟨[.advance false 0, .advance false 0, .advance false 0, .advance true 0,
      .advance true 0, .advance true 0], rfl⟩, rfl⟩, ?_, by decide +kernel⟩
  rintro (_ | _) <;> rfl

end ControlPlane.NodeManager.Redis
