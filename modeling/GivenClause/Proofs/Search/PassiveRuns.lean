import GivenClause.Proofs.Search.PassiveRefinement

/-! # Runs of the passive set

In a run, clauses are made, wait, are removed and are handed out, and now and then stale queue entries
are dropped. The same calls can be sent to a passive set and to the set without entries.

* `PassiveOps.performAll` are runs, `PassiveOps.Agree.performAll` compares two of them call by call;
* `EagerPassive.perform_cases` says what a call to the set without entries can do;
* `PassiveSet.performAll_eq_eager`: nothing but the entries tells the two sets apart. -/

namespace GivenClause

open InsertionOrder

/-! ## Calls -/

/-- A call to a set of waiting clauses, or to the store of clauses. -/
inductive PassiveCall where
  /-- A call to the store. -/
  | store (call : StoreCall)
  /-- Adds clauses of the store. -/
  | add (ids : List ClauseId)
  /-- Forgets a clause. -/
  | remove (id : ClauseId)
  /-- Asks for a clause. -/
  | next
  /-- Drops stale entries. -/
  | clean

namespace PassiveCall

/-- Whether a call drops stale entries. -/
def isClean : PassiveCall → Bool
  | .clean => true
  | _ => false

/-- The same call, but for the order in which clauses are added. -/
inductive Reordered : PassiveCall → PassiveCall → Prop where
  /-- The same call. -/
  | refl (call : PassiveCall) : Reordered call call
  /-- The same clauses are added in another order. -/
  | add {ids ids' : List ClauseId} (perm : ids.Perm ids') : Reordered (.add ids) (.add ids')

end PassiveCall

/-- The operations on a set of waiting clauses. -/
structure PassiveOps (σ : Type) where
  /-- Adds clauses of a store. -/
  add : ClauseStore → σ → List ClauseId → Except Fault σ
  /-- Forgets a clause. -/
  remove : σ → ClauseId → σ
  /-- Hands out a clause. -/
  next : ClauseStore → σ → σ × Option ClauseId
  /-- Drops stale entries. -/
  clean : σ → σ

/-- The operations of a passive set. -/
def PassiveSet.ops : PassiveOps PassiveSet where
  add store passive ids :=
    let (passive, added) := passive.add store ids
    added.map fun _ => passive
  remove passive id := (passive.remove id).1
  next _ passive := passive.next
  clean passive := passive.clean.1

/-- The operations of a set without entries, where nothing is ever stale. -/
def EagerPassive.ops : PassiveOps EagerPassive where
  add := add
  remove := remove
  next := next
  clean := id

namespace PassiveOps

variable {σ τ : Type}

/-- Performs a call on a store and a set: the store and the set after it, and what was handed out. A call
to the store may stop with a fault and leaves the store as it is then. -/
def perform (ops : PassiveOps σ) (state : ClauseStore × σ) :
    PassiveCall → Except Fault ((ClauseStore × σ) × List (Option ClauseId))
  | .store call => .ok (((state.1.perform call).1, state.2), [])
  | .add ids => (ops.add state.1 state.2 ids).map fun set => ((state.1, set), [])
  | .remove id => .ok ((state.1, ops.remove state.2 id), [])
  | .next =>
    let (set, given) := ops.next state.1 state.2
    .ok ((state.1, set), [given])
  | .clean => .ok ((state.1, ops.clean state.2), [])

/-- Performs calls one after the other and collects what was handed out. -/
def performAll (ops : PassiveOps σ) (state : ClauseStore × σ) :
    List PassiveCall → Except Fault ((ClauseStore × σ) × List (Option ClauseId))
  | [] => .ok (state, [])
  | call :: calls => do
    let (state, given) ← ops.perform state call
    let (state, later) ← ops.performAll state calls
    .ok (state, given ++ later)

/-- The results of two runs agree: the same was handed out and the sets are related, or both stopped. -/
inductive Agree (related : ClauseStore × σ → ClauseStore × τ → Prop)
    (faults : Fault → Fault → Prop) :
    Except Fault ((ClauseStore × σ) × List (Option ClauseId)) →
      Except Fault ((ClauseStore × τ) × List (Option ClauseId)) → Prop where
  /-- Both runs went through. -/
  | ok {state : ClauseStore × σ} {state' : ClauseStore × τ} (given : List (Option ClauseId))
    (h : related state state') : Agree related faults (.ok (state, given)) (.ok (state', given))
  /-- Both runs stopped. -/
  | error {fault fault' : Fault} (h : faults fault fault') :
    Agree related faults (.error fault) (.error fault')

/-- Runs agree whose calls agree one by one. -/
theorem Agree.performAll {ops : PassiveOps σ} {ops' : PassiveOps τ}
    {related : ClauseStore × σ → ClauseStore × τ → Prop} {faults : Fault → Fault → Prop}
    {sameCall : PassiveCall → PassiveCall → Prop}
    (step : ∀ state state' call call', sameCall call call' → related state state' →
      Agree related faults (ops.perform state call) (ops'.perform state' call'))
    {calls calls' : List PassiveCall} (hcalls : List.Forall₂ sameCall calls calls')
    {state : ClauseStore × σ} {state' : ClauseStore × τ} (h : related state state') :
    Agree related faults (ops.performAll state calls) (ops'.performAll state' calls') := by
  induction hcalls generalizing state state' with
  | nil => exact .ok [] h
  | cons hcall hcalls ih =>
    rw [PassiveOps.performAll, PassiveOps.performAll]
    have hstep := step state state' _ _ hcall h
    generalize ops.perform state _ = result at hstep ⊢
    generalize ops'.perform state' _ = result' at hstep ⊢
    cases hstep with
    | error hfaults => exact .error hfaults
    | @ok later later' given hlater =>
      -- the rest of both runs starts from related sets, so the induction applies to it
      have hrest := ih hlater
      dsimp only [Bind.bind, Except.bind]
      generalize ops.performAll later _ = rest at hrest ⊢
      generalize ops'.performAll later' _ = rest' at hrest ⊢
      cases hrest with
      | error hfaults => exact .error hfaults
      | ok given' hend => exact .ok (given ++ given') hend

variable {ops : PassiveOps σ} {state later : ClauseStore × σ} {given : List (Option ClauseId)}

theorem performAll_cons {call : PassiveCall} {calls : List PassiveCall}
    (h : ops.performAll state (call :: calls) = .ok (later, given)) :
    ∃ next now rest, ops.perform state call = .ok (next, now) ∧
      ops.performAll next calls = .ok (later, rest) ∧ given = now ++ rest := by
  obtain ⟨⟨next, now⟩, hnow, hafter⟩ := Fault.bind_eq_ok.1 h
  obtain ⟨⟨last, rest⟩, hrest, hend⟩ := Fault.bind_eq_ok.1 hafter
  cases hend
  exact ⟨next, now, rest, hnow, hrest, rfl⟩

/-- A call and the rest of a run. -/
theorem performAll_cons_of_eq {next : ClauseStore × σ} {call : PassiveCall} {calls : List PassiveCall}
    {now rest : List (Option ClauseId)} (hnow : ops.perform state call = .ok (next, now))
    (hrest : ops.performAll next calls = .ok (later, rest)) :
    ops.performAll state (call :: calls) = .ok (later, now ++ rest) := by
  rw [performAll, hnow]
  show (ops.performAll next calls).bind _ = _
  rw [hrest]
  rfl

/-- A property that every call keeps holds at the end of a run. -/
theorem performAll_induction {motive : ClauseStore × σ → Prop}
    (step : ∀ {state later call given}, ops.perform state call = .ok (later, given) → motive state →
      motive later)
    {calls : List PassiveCall} (h : ops.performAll state calls = .ok (later, given))
    (hstate : motive state) : motive later := by
  induction calls generalizing state given with
  | nil =>
    cases h
    exact hstate
  | cons call calls ih =>
    obtain ⟨next, now, rest, hnow, hrest, -⟩ := performAll_cons h
    exact ih hrest (step hnow hstate)

end PassiveOps

/-! ## Runs without entries -/

namespace EagerPassive

variable {store : ClauseStore} {model model' later : EagerPassive}
  {state state' : ClauseStore × EagerPassive} {call : PassiveCall} {calls : List PassiveCall}
  {given : List (Option ClauseId)} {id : ClauseId}

/-- Clauses can be added exactly when they are in the store. -/
theorem add_eq_ok_iff {ids : List ClauseId} :
    model.add store ids = .ok later ↔
      (∀ id ∈ ids, ∃ clause, store.get? id = some clause) ∧
        later = { model with live := insertAll model.live ids } := by
  induction ids generalizing model with
  | nil =>
    rw [add, Except.ok.injEq]
    refine ⟨fun h => ⟨?_, h.symm⟩, fun h => h.2.symm⟩
    intro id hid
    cases hid
  | cons id ids ih =>
    rw [add, Fault.bind_eq_ok, List.forall_mem_cons, and_assoc]
    simp only [ClauseStore.get_eq_ok_iff, ih, insertAll_cons, exists_and_right]

/-- Everything that a call can do. -/
theorem perform_cases (h : ops.perform state call = .ok (state', given)) :
    (∃ storeCall, call = .store storeCall ∧ state' = ((state.1.perform storeCall).1, state.2) ∧
      given = []) ∨
    (∃ ids, call = .add ids ∧ (∀ id ∈ ids, ∃ clause, state.1.get? id = some clause) ∧
      state' = (state.1, { state.2 with live := insertAll state.2.live ids }) ∧ given = []) ∨
    (∃ id, call = .remove id ∧ state' = (state.1, state.2.remove id) ∧ given = []) ∨
    (∃ position taken slot id, call = .next ∧ state.2.slots[position]? = some slot ∧
      id ∈ state.2.live ∧ state' = (state.1, state.2.afterServing position taken slot id) ∧
      given = [some id]) ∨
    (call = .next ∧ state' = (state.1, state.2.pass) ∧ given = [none]) ∨
    (call = .clean ∧ state' = state ∧ given = []) := by
  cases call with
  | store storeCall =>
    cases h
    exact Or.inl ⟨storeCall, rfl, rfl, rfl⟩
  | add ids =>
    rw [PassiveOps.perform] at h
    cases hadd : ops.add state.1 state.2 ids with
    | error fault =>
      rw [hadd] at h
      cases h
    | ok later =>
      rw [hadd] at h
      cases h
      obtain ⟨hknown, rfl⟩ := add_eq_ok_iff.1 hadd
      exact Or.inr (Or.inl ⟨ids, rfl, hknown, rfl, rfl⟩)
  | remove id =>
    cases h
    exact Or.inr (Or.inr (Or.inl ⟨id, rfl, rfl, rfl⟩))
  | next =>
    cases h
    rcases next_cases state.1 state.2 with ⟨position, taken, slot, id, hslot, hid, hnext⟩ | hnext
    · refine Or.inr (Or.inr (Or.inr (Or.inl ⟨position, taken, slot, id, rfl, hslot, hid, ?_⟩)))
      exact ⟨congrArg (fun result => (state.1, result.1)) hnext,
        congrArg (fun result => [result.2]) hnext⟩
    · refine Or.inr (Or.inr (Or.inr (Or.inr (Or.inl ⟨rfl, ?_⟩))))
      exact ⟨congrArg (fun result => (state.1, result.1)) hnext,
        congrArg (fun result => [result.2]) hnext⟩
  | clean =>
    cases h
    exact Or.inr (Or.inr (Or.inr (Or.inr (Or.inr ⟨rfl, rfl, rfl⟩))))

theorem live_pass (model : EagerPassive) : model.pass.live = model.live := by
  rw [pass]
  split <;> rfl

theorem slots_pass (model : EagerPassive) : model.pass.slots = model.slots := by
  rw [pass]
  split <;> rfl

/-- Dropping stale entries anywhere changes nothing. -/
theorem performAll_filter_isClean (state : ClauseStore × EagerPassive) (calls : List PassiveCall) :
    ops.performAll state (calls.filter (!·.isClean)) = ops.performAll state calls := by
  induction calls generalizing state with
  | nil => rfl
  | cons call calls ih =>
    cases call with
    | clean =>
      -- the set stays as it is, and nothing is put in front of what the rest hands out
      rw [List.filter_cons_of_neg (by simp [PassiveCall.isClean]), ih, PassiveOps.performAll]
      show _ = (ops.performAll state calls).bind fun result => .ok (result.1, [] ++ result.2)
      cases ops.performAll state calls <;> rfl
    | _ =>
      rw [List.filter_cons_of_pos rfl, PassiveOps.performAll, PassiveOps.performAll]
      simp only [ih]

/-- A clause that is handed out is no longer live. -/
theorem not_mem_live_next (hnodup : model.live.Nodup) (h : (model.next store).2 = some id) :
    id ∉ (model.next store).1.live := by
  rcases next_cases store model with ⟨position, taken, slot, other, -, -, hnext⟩ | hnext
  · rw [hnext] at h ⊢
    cases h
    exact hnodup.not_mem_erase
  · rw [hnext] at h
    cases h

/-- A clause that is not live is not handed out before it is added. -/
theorem not_mem_of_not_mem_live (hrun : ops.performAll state calls = .ok (state', given))
    (hid : id ∉ state.2.live) (hcalls : ∀ ids, .add ids ∈ calls → id ∉ ids) : some id ∉ given := by
  induction calls generalizing state given with
  | nil =>
    cases hrun
    exact List.not_mem_nil
  | cons call calls ih =>
    obtain ⟨next, now, rest, hnow, hrest, rfl⟩ := PassiveOps.performAll_cons hrun
    -- only an addition makes a clause live, and only live clauses are handed out
    have hkept : id ∉ next.2.live ∧ some id ∉ now := by
      obtain ⟨_, rfl, rfl, rfl⟩ | ⟨ids, rfl, _, rfl, rfl⟩ | ⟨_, rfl, rfl, rfl⟩ |
        ⟨_, _, _, other, rfl, _, hother, rfl, rfl⟩ | ⟨rfl, rfl, rfl⟩ | ⟨rfl, rfl, rfl⟩ :=
        perform_cases hnow
      · exact ⟨hid, List.not_mem_nil⟩
      · have hids := hcalls ids List.mem_cons_self
        exact ⟨fun hmem => (mem_insertAll.1 hmem).elim hid hids, List.not_mem_nil⟩
      · exact ⟨fun hmem => hid (List.mem_of_mem_erase hmem), List.not_mem_nil⟩
      · refine ⟨fun hmem => hid (List.mem_of_mem_erase hmem), fun hmem => ?_⟩
        cases List.mem_singleton.1 hmem
        exact hid hother
      · rw [live_pass]
        exact ⟨hid, by simp⟩
      · exact ⟨hid, List.not_mem_nil⟩
    rw [List.mem_append, not_or]
    exact ⟨hkept.2, ih hrest hkept.1 fun ids hids => hcalls ids (List.mem_cons_of_mem call hids)⟩

/-- The queues of a set: how they weigh, what they accept and how long their turns are. -/
def queues (model : EagerPassive) : List (WeightFunction × Acceptance × Nat) :=
  model.slots.map fun slot => (slot.weight, slot.accept, slot.coefficient)

theorem queues_afterServing {position taken : Nat} {slot : EagerSlot}
    (h : model.slots[position]? = some slot) :
    (model.afterServing position taken slot id).queues = model.queues := by
  have hsame : model.slots.set position slot = model.slots := by
    obtain ⟨hlt, rfl⟩ := List.getElem?_eq_some_iff.1 h
    exact List.set_getElem_self hlt
  calc (model.afterServing position taken slot id).queues
      = { model with slots := model.slots.set position slot }.queues := by
        simp only [queues, afterServing, List.map_set]
    _ = model.queues := by rw [hsame]

theorem queues_pass (model : EagerPassive) : model.pass.queues = model.queues := by
  rw [queues, slots_pass, queues]

/-- Handing out a clause leaves the queues as they are. -/
theorem queues_next (store : ClauseStore) (model : EagerPassive) :
    (model.next store).1.queues = model.queues := by
  rcases next_cases store model with ⟨position, taken, slot, id, hslot, -, hnext⟩ | hnext
  · rw [hnext]
    exact queues_afterServing hslot
  · rw [hnext, queues_pass]

/-- The queues stay the same throughout a run. -/
theorem queues_performAll (hrun : ops.performAll state calls = .ok (state', given)) :
    state'.2.queues = state.2.queues := by
  refine PassiveOps.performAll_induction
    (motive := fun later => later.2.queues = state.2.queues) ?_ hrun rfl
  intro first later call given hstep hfirst
  rw [← hfirst]
  obtain ⟨_, rfl, rfl, rfl⟩ | ⟨_, rfl, _, rfl, rfl⟩ | ⟨_, rfl, rfl, rfl⟩ |
    ⟨_, _, _, _, rfl, hslot, _, rfl, rfl⟩ | ⟨rfl, rfl, rfl⟩ | ⟨rfl, rfl, rfl⟩ :=
    perform_cases hstep
  · rfl
  · rfl
  · rfl
  · exact queues_afterServing hslot
  · exact queues_pass _
  · rfl

/-- Two sets that differ in the order of the live clauses only. -/
structure Alike (model model' : EagerPassive) : Prop where
  /-- Live clauses are listed once. -/
  nodup : model.live.Nodup
  /-- The same clauses are live. -/
  live : model.live.Perm model'.live
  /-- Nothing else differs. -/
  same : model' = { model with live := model'.live }

namespace Alike

theorem refl (hnodup : model.live.Nodup) : Alike model model :=
  ⟨hnodup, .refl _, rfl⟩

theorem symm (h : Alike model model') : Alike model' model :=
  ⟨h.live.nodup_iff.1 h.nodup, h.live.symm, by rw [h.same]⟩

/-- The order in which clauses are added matters for their order only. -/
theorem add (h : Alike model model') {ids ids' : List ClauseId} (hids : ids.Perm ids')
    (hadd : model.add store ids = .ok later) :
    ∃ later', model'.add store ids' = .ok later' ∧ Alike later later' := by
  obtain ⟨hknown, rfl⟩ := add_eq_ok_iff.1 hadd
  refine ⟨_, add_eq_ok_iff.2 ⟨fun id hid => hknown id (hids.mem_iff.2 hid), rfl⟩, ?_⟩
  refine ⟨nodup_insertAll ids h.nodup, insertAll_perm h.nodup h.live hids, ?_⟩
  rw [h.same]

theorem remove (h : Alike model model') (id : ClauseId) :
    Alike (model.remove id) (model'.remove id) := by
  refine ⟨h.nodup.erase id, h.live.erase id, ?_⟩
  rw [h.same]
  rfl

/-- The same clause is handed out. -/
theorem next (h : Alike model model') (store : ClauseStore) :
    (model'.next store).2 = (model.next store).2 ∧
      Alike (model.next store).1 (model'.next store).1 := by
  rw [h.same, next_withLive h.live]
  refine ⟨rfl, ?_⟩
  rcases next_cases store model with ⟨position, taken, slot, id, -, -, hnext⟩ | hnext
  · rw [hnext]
    exact ⟨h.nodup.erase id, h.live.erase id, rfl⟩
  · rw [hnext]
    have hpass := live_pass model
    exact ⟨hpass ▸ h.nodup, hpass ▸ h.live, rfl⟩

theorem perform_add (h : Alike model model') {ids ids' : List ClauseId} (hids : ids.Perm ids') :
    PassiveOps.Agree (fun s s' => s'.1 = s.1 ∧ Alike s.2 s'.2) (fun _ _ => True)
      (ops.perform (store, model) (.add ids)) (ops.perform (store, model') (.add ids')) := by
  show PassiveOps.Agree _ _ ((model.add store ids).map _) ((model'.add store ids').map _)
  cases hadd : model.add store ids with
  | ok later =>
    obtain ⟨later', hadd', hlater⟩ := h.add hids hadd
    rw [hadd']
    exact .ok [] ⟨rfl, hlater⟩
  | error fault =>
    -- the faults may name different clauses, but the other order cannot succeed
    cases hadd' : model'.add store ids' with
    | error fault' => exact .error trivial
    | ok later' =>
      obtain ⟨later, hok, -⟩ := h.symm.add hids.symm hadd'
      rw [hadd] at hok
      cases hok

/-- Whatever the order in which clauses are added, the same is handed out. -/
theorem perform {call' : PassiveCall} (hcall : call.Reordered call') (hstore : state'.1 = state.1)
    (h : Alike state.2 state'.2) :
    PassiveOps.Agree (fun s s' => s'.1 = s.1 ∧ Alike s.2 s'.2) (fun _ _ => True)
      (ops.perform state call) (ops.perform state' call') := by
  obtain ⟨store, model⟩ := state
  obtain ⟨store', model'⟩ := state'
  cases hstore
  cases hcall with
  | add hids => exact h.perform_add hids
  | refl =>
    cases call with
    | store storeCall => exact .ok [] ⟨rfl, h⟩
    | add ids => exact h.perform_add (.refl ids)
    | remove id => exact .ok [] ⟨rfl, h.remove id⟩
    | next =>
      obtain ⟨hgiven, hlater⟩ := h.next store
      show PassiveOps.Agree _ _ _ (.ok ((store, (model'.next store).1), [(model'.next store).2]))
      rw [hgiven]
      exact .ok _ ⟨rfl, hlater⟩
    | clean => exact .ok [] ⟨rfl, h⟩

end Alike

/-- The order in which clauses are added matters for the order of the live clauses only. -/
theorem performAll_reordered (hnodup : state.2.live.Nodup) {calls' : List PassiveCall}
    (hcalls : List.Forall₂ PassiveCall.Reordered calls calls')
    (hrun : ops.performAll state calls = .ok (state', given)) :
    ∃ other, ops.performAll state calls' = .ok (other, given) ∧ other.1 = state'.1 ∧
      Alike state'.2 other.2 := by
  have hagree := PassiveOps.Agree.performAll
    (fun _ _ _ _ hcall (hs : _ ∧ _) => Alike.perform hcall hs.1 hs.2) hcalls
    (And.intro rfl (Alike.refl hnodup))
  rw [hrun] at hagree
  generalize ops.performAll state calls' = result at hagree ⊢
  cases hagree with
  | ok _ hrelated => exact ⟨_, rfl, hrelated⟩

end EagerPassive

/-! ## Runs with entries -/

namespace PassiveSet

variable {queues : List (ClauseQueue × Nat)} {store : ClauseStore} {passive : PassiveSet}
  {later : ClauseStore × PassiveSet} {calls calls' : List PassiveCall}
  {given : List (Option ClauseId)}

/-- What a run leads to, without the entries. -/
def forgetEntries (result : (ClauseStore × PassiveSet) × List (Option ClauseId)) :
    (ClauseStore × EagerPassive) × List (Option ClauseId) :=
  ((result.1.1, result.1.2.withoutEntries), result.2)

/-- A call does the same with and without entries. -/
theorem Faithful.perform (h : passive.Faithful store) (call : PassiveCall) :
    PassiveOps.Agree (fun s m => s.2.Faithful s.1 ∧ m = (s.1, s.2.withoutEntries)) Eq
      (ops.perform (store, passive) call)
      (EagerPassive.ops.perform (store, passive.withoutEntries) call) := by
  cases call with
  | store storeCall =>
    refine .ok [] ⟨?_, rfl⟩
    exact h.of_extends (store.extends_perform storeCall) (h.numbered.perform storeCall)
  | add ids =>
    have houtcome := h.add_outcome ids
    show PassiveOps.Agree _ _
      (Except.map _ ((passive.add store ids).2.map fun _ => (passive.add store ids).1))
      ((passive.withoutEntries.add store ids).map _)
    generalize passive.add store ids = result at houtcome ⊢
    cases houtcome with
    | added faithful same =>
      rw [same]
      exact .ok [] ⟨faithful, rfl⟩
    | unknown same =>
      rw [same]
      exact .error rfl
  | remove id => exact .ok [] ⟨h.remove id, rfl⟩
  | next =>
    show PassiveOps.Agree _ _ _ (.ok ((store, (passive.withoutEntries.next store).1),
      [(passive.withoutEntries.next store).2]))
    rw [h.next_eq]
    exact .ok _ ⟨h.next, rfl⟩
  | clean => exact .ok [] ⟨h.clean, by rw [← passive.withoutEntries_clean]; rfl⟩

/-- A run does the same with and without entries. -/
theorem Faithful.performAll (h : passive.Faithful store) (calls : List PassiveCall) :
    PassiveOps.Agree (fun s m => s.2.Faithful s.1 ∧ m = (s.1, s.2.withoutEntries)) Eq
      (ops.performAll (store, passive) calls)
      (EagerPassive.ops.performAll (store, passive.withoutEntries) calls) := by
  have hcalls : List.Forall₂ Eq calls calls := List.forall₂_same.2 fun _ _ => rfl
  refine PassiveOps.Agree.performAll ?_ hcalls ⟨h, rfl⟩
  rintro s m c _ rfl ⟨hs, rfl⟩
  exact hs.perform c

theorem Faithful.of_performAll (h : passive.Faithful store)
    (hrun : ops.performAll (store, passive) calls = .ok (later, given)) :
    later.2.Faithful later.1 ∧
      EagerPassive.ops.performAll (store, passive.withoutEntries) calls =
        .ok ((later.1, later.2.withoutEntries), given) := by
  have hagree := h.performAll calls
  rw [hrun] at hagree
  generalize EagerPassive.ops.performAll _ calls = result at hagree ⊢
  cases hagree with
  | ok _ hrelated => exact ⟨hrelated.1, by rw [hrelated.2]⟩

/-- A run from a faithful set is that of the set without entries. -/
theorem Faithful.performAll_eq (h : passive.Faithful store) (calls : List PassiveCall) :
    (ops.performAll (store, passive) calls).map forgetEntries =
      EagerPassive.ops.performAll (store, passive.withoutEntries) calls := by
  have hagree := h.performAll calls
  generalize ops.performAll (store, passive) calls = result at hagree ⊢
  generalize EagerPassive.ops.performAll _ calls = result' at hagree ⊢
  cases hagree with
  | ok given hrelated =>
    rw [hrelated.2]
    rfl
  | error hfault =>
    rw [hfault]
    rfl

/-- The order in which clauses are added matters for the order of the live clauses only. -/
theorem Faithful.performAll_reordered (h : passive.Faithful store)
    (hcalls : List.Forall₂ PassiveCall.Reordered calls calls')
    (hrun : ops.performAll (store, passive) calls = .ok (later, given)) :
    ∃ other, ops.performAll (store, passive) calls' = .ok (other, given) ∧ other.1 = later.1 ∧
      later.2.withoutEntries.Alike other.2.withoutEntries := by
  obtain ⟨model, hmodel, hstore, halike⟩ :=
    EagerPassive.performAll_reordered h.nodup hcalls (h.of_performAll hrun).2
  have hagree := h.performAll calls'
  rw [hmodel] at hagree
  generalize ops.performAll (store, passive) calls' = result at hagree ⊢
  cases hagree with
  | @ok other _ _ hrelated =>
    rw [hrelated.2] at hstore halike
    exact ⟨other, rfl, hstore, halike⟩

/-- A clause that is handed out is no longer live. -/
theorem Faithful.not_mem_live_next (h : passive.Faithful store) {id : ClauseId}
    (hnext : passive.next.2 = some id) : id ∉ passive.next.1.live := by
  have hgiven : (passive.withoutEntries.next store).2 = some id := by
    rw [h.next_eq]
    exact hnext
  have hgone := EagerPassive.not_mem_live_next h.nodup hgiven
  rwa [h.next_eq] at hgone

/-- A passive set has nothing to hand out exactly when every queue rejects every live clause. -/
theorem Faithful.next_eq_none_iff (h : passive.Faithful store)
    (hqueues : passive.withoutEntries.queues = (EagerPassive.start queues).queues) :
    passive.next.2 = none ↔ ∀ id ∈ passive.live, ∃ clause, store.get? id = some clause ∧
      ∀ q ∈ queues, q.1.accepts clause = false := by
  have hnext : passive.next.2 = (passive.withoutEntries.next store).2 := by rw [h.next_eq]
  rw [hnext, EagerPassive.next_eq_none_iff fun hne =>
    h.withoutEntries_cursor (slots_eq_nil_iff.ne.1 hne)]
  -- the queues of the set accept what those of the list accept
  have haccepts : ∀ clause, (∀ slot ∈ passive.withoutEntries.slots,
      slot.accept.accepts clause = false) ↔ ∀ q ∈ queues, q.1.accepts clause = false := by
    intro clause
    have hkinds : (∀ kind ∈ passive.withoutEntries.queues, kind.2.1.accepts clause = false) ↔
        ∀ kind ∈ (EagerPassive.start queues).queues, kind.2.1.accepts clause = false := by
      rw [hqueues]
    simpa only [EagerPassive.queues, EagerPassive.start, List.forall_mem_map, ClauseQueue.accepts]
      using hkinds
  constructor
  · intro hrejected id hid
    obtain ⟨clause, hclause⟩ := h.known id hid
    refine ⟨clause, hclause, (haccepts clause).1 fun slot hslot => ?_⟩
    exact (ClauseStore.entryFor?_eq_none_iff hclause).1 (hrejected slot hslot id hid)
  · intro hrejected slot hslot id hid
    obtain ⟨clause, hclause, hall⟩ := hrejected id hid
    exact (ClauseStore.entryFor?_eq_none_iff hclause).2 ((haccepts clause).2 hall slot hslot)

/-- An empty set over queues that have turns. -/
theorem new_eq_ok (hpositive : ∀ q ∈ queues, 0 < q.2) :
    new queues = .ok { slots := queues.map fun q => { queue := q.1, coefficient := q.2 } } := by
  have hfind : queues.find? (fun q => q.2 = 0) = none := by
    rw [List.find?_eq_none]
    intro q hq
    simpa using Nat.ne_of_gt (hpositive q hq)
  rw [new, hfind]

/-- A passive set is made of queues that all have turns. -/
theorem of_new_eq_ok {empty : PassiveSet}
    (h : new queues = .ok empty) : (∀ q ∈ queues, 0 < q.2) ∧
      empty = { slots := queues.map fun q => { queue := q.1, coefficient := q.2 } } := by
  rw [new] at h
  split at h
  · cases h
  · next hfind =>
    cases h
    refine ⟨fun q hq => Nat.pos_of_ne_zero ?_, rfl⟩
    simpa using List.find?_eq_none.1 hfind q hq

theorem withoutEntries_eq_start (queues : List (ClauseQueue × Nat)) :
    withoutEntries { slots := queues.map fun q => { queue := q.1, coefficient := q.2 } } =
      .start queues := by
  simp only [withoutEntries, EagerPassive.start, List.map_map]
  rfl

/-- Nothing but its entries tells a passive set from the set without entries, whatever is done to it: the
same clauses are handed out and live, and the cursor, the turn and the numbers of clauses handed out by
each queue are the same. Hence dropping stale entries has no effect, nor has the order in which clauses
are added; nothing is handed out exactly when every queue rejects every live clause; and a clause is not
handed out again before it is added again. -/
theorem performAll_eq_eager (ordering : TermOrder) (selector : Selector)
    (hpositive : ∀ q ∈ queues, 0 < q.2) (hempty : ∀ q ∈ queues, q.1.items = [])
    (hsteady : ∀ q ∈ queues, q.1.Steady) :
    ∃ empty, new queues = .ok empty ∧
      (∀ calls,
        (ops.performAll (.new ordering selector, empty) calls).map forgetEntries =
          EagerPassive.ops.performAll (.new ordering selector, .start queues) calls) ∧
      (∀ calls calls', calls.filter (!·.isClean) = calls'.filter (!·.isClean) →
        (ops.performAll (.new ordering selector, empty) calls).map forgetEntries =
          (ops.performAll (.new ordering selector, empty) calls').map forgetEntries) ∧
      (∀ calls calls' state given, List.Forall₂ PassiveCall.Reordered calls calls' →
        ops.performAll (.new ordering selector, empty) calls = .ok (state, given) →
        ∃ other, ops.performAll (.new ordering selector, empty) calls' = .ok (other, given) ∧
          other.1 = state.1 ∧ state.2.withoutEntries.Alike other.2.withoutEntries) ∧
      ∀ calls state given,
        ops.performAll (.new ordering selector, empty) calls = .ok (state, given) →
        (state.2.next.2 = none ↔ ∀ id ∈ state.2.live, ∃ clause, state.1.get? id = some clause ∧
          ∀ q ∈ queues, q.1.accepts clause = false) ∧
        ∀ id calls' later given', state.2.next.2 = some id →
          ops.performAll (state.1, state.2.next.1) calls' = .ok (later, given') →
          (∀ ids, .add ids ∈ calls' → id ∉ ids) → some id ∉ given' := by
  set empty : PassiveSet := { slots := queues.map fun q => { queue := q.1, coefficient := q.2 } }
  have hfaithful : empty.Faithful (.new ordering selector) :=
    faithful_new hpositive hempty hsteady (ClauseStore.numbered_new ordering selector)
  have hstart : empty.withoutEntries = .start queues := withoutEntries_eq_start queues
  have heager : ∀ calls,
      (ops.performAll (.new ordering selector, empty) calls).map forgetEntries =
        EagerPassive.ops.performAll (.new ordering selector, .start queues) calls := by
    intro calls
    rw [← hstart]
    exact hfaithful.performAll_eq calls
  refine ⟨empty, new_eq_ok hpositive, heager, ?_, ?_, ?_⟩
  · -- without entries there is nothing to clean, so both runs are the one without cleaning
    intro calls calls' hcalls
    rw [heager, heager, ← EagerPassive.performAll_filter_isClean, hcalls,
      EagerPassive.performAll_filter_isClean]
  · intro calls calls' state given hcalls hrun
    exact hfaithful.performAll_reordered hcalls hrun
  · intro calls state given hrun
    obtain ⟨hstate, hmodel⟩ := hfaithful.of_performAll hrun
    constructor
    · refine hstate.next_eq_none_iff ?_
      rw [← hstart]
      exact EagerPassive.queues_performAll hmodel
    · intro id calls' later given' hnext hlater hcalls
      exact EagerPassive.not_mem_of_not_mem_live (hstate.next.of_performAll hlater).2
        (hstate.not_mem_live_next hnext) hcalls

/-- A queue that takes all clauses, oldest first, and one that takes goals, lightest first. -/
def fifoAndGoals : List (ClauseQueue × Nat) :=
  [({ name := "fifo", weight := .age, accept := .all }, 1),
    ({ name := "goals", weight := .symbols, accept := .goals }, 1)]

/-- The goal `a ≠ b`. -/
def inequality : ClauseInput where
  literals := [.equation (.const 0) (.const 1) false]
  provenance := .input .axiomatic

/-- A new store to which the goal was added. -/
def inequalityStore : ClauseStore :=
  ((ClauseStore.new (.kbo {}) (.preset .none)).create inequality).1

theorem inequalityStore_eq :
    inequalityStore = (((ClauseStore.bare (.kbo {}) (.preset .none)).createNew
      { literals := [.verum], provenance := (Provenance.input .axiomatic).persist }
      [.verum]).1.createNew inequality inequality.literals).1 := by
  rw [inequalityStore, ClauseStore.create_new_eq_createNew _ _ (by decide) (by decide)]
  rfl

/-- The trivial clause is added, removed and added again; it is handed out once, by the first queue, and
then the goal by the second. -/
theorem performAll_eq_eager_fifoAndGoals :
    (∀ q ∈ fifoAndGoals, 0 < q.2 ∧ q.1.items = [] ∧ q.1.Steady) ∧
    ∃ empty, new fifoAndGoals = .ok empty ∧
      ((ops.performAll (.new (.kbo {}) (.preset .none), empty)
        [.store (.create inequality), .add [1, 0], .remove 0, .add [0], .clean, .next, .next,
          .next]).map forgetEntries).map (·.2) = .ok [some 0, some 1, none] := by
  have hqueues : ∀ q ∈ fifoAndGoals, 0 < q.2 ∧ q.1.items = [] ∧ q.1.Steady := by
    intro q hq
    simp only [fifoAndGoals, List.mem_cons, List.not_mem_nil, or_false] at hq
    rcases hq with rfl | rfl
    all_goals exact ⟨by decide, rfl, fun _ _ => ⟨rfl, rfl⟩⟩
  obtain ⟨empty, hnew, heager, -⟩ := performAll_eq_eager (.kbo {}) (.preset .none)
    (fun q hq => (hqueues q hq).1) (fun q hq => (hqueues q hq).2.1) fun q hq => (hqueues q hq).2.2
  refine ⟨hqueues, empty, hnew, ?_⟩
  rw [heager]
  show ((EagerPassive.ops.performAll (inequalityStore, .start fifoAndGoals) _).bind
    fun result => .ok (result.1, [] ++ result.2)).map _ = _
  rw [inequalityStore_eq]
  decide +kernel

end PassiveSet

end GivenClause
