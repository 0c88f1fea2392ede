import GivenClause.Proofs.Search.PassiveEntries

/-! # A passive set without queue entries

A passive set could do without entries: each time a clause is asked for, look through the live clauses
for the least one that the queue whose turn it is accepts. `EagerPassive` does that. It has no stale
entries and nothing to clean, and it is what a passive set amounts to.

* `EagerPassive.turns` are the turns in the order in which they are tried, `EagerPassive.serve?` is what
  the queue of a turn hands out;
* `EagerPassive.next_eq_none_iff` says when nothing is handed out, `EagerPassive.next_cases` what can be;
* `EagerPassive.next_withLive`: the order of the live clauses plays no part. -/

namespace GivenClause

open InsertionOrder

/-! ## The least entry -/

namespace QueueItem

/-- The least of some entries. -/
def least? : List QueueItem → Option QueueItem
  | [] => none
  | item :: items =>
    match least? items with
    | none => some item
    | some other => if before other item then some other else some item

theorem least?_eq_none_iff {items : List QueueItem} : least? items = none ↔ items = [] := by
  cases items with
  | nil => simp [least?]
  | cons item items =>
    rw [least?]
    split
    · simp
    · split <;> simp

theorem least?_mem_and_le {items : List QueueItem} {item : QueueItem} (h : least? items = some item) :
    item ∈ items ∧ ∀ other ∈ items, ¬ before other item = true := by
  induction items generalizing item with
  | nil => cases h
  | cons first items ih =>
    rw [least?] at h
    split at h
    · next hnone =>
      cases h
      rw [least?_eq_none_iff.1 hnone]
      simp [not_before_self]
    · next other hother =>
      obtain ⟨hmem, hle⟩ := ih hother
      split at h
      · next hbefore =>
        cases h
        refine ⟨List.mem_cons_of_mem first hmem, ?_⟩
        intro x hx
        rcases List.mem_cons.1 hx with rfl | hx
        · exact before_asymm hbefore
        · exact hle x hx
      · next hbefore =>
        cases h
        refine ⟨List.mem_cons_self, ?_⟩
        intro x hx hlt
        rcases List.mem_cons.1 hx with rfl | hx
        · exact not_before_self hlt
        · -- `x` is not before the least of the others, which is not before the first
          by_cases heq : other = first
          · exact hle x hx (heq ▸ hlt)
          · have hfirst := (before_or_before heq).resolve_left hbefore
            exact hle x hx (before_trans hlt hfirst)

/-- The least entry is the one that no other entry comes before. -/
theorem least?_eq_some_iff {items : List QueueItem} {item : QueueItem} :
    least? items = some item ↔ item ∈ items ∧ ∀ other ∈ items, ¬ before other item = true := by
  refine ⟨least?_mem_and_le, ?_⟩
  rintro ⟨hmem, hle⟩
  cases hleast : least? items with
  | none =>
    rw [least?_eq_none_iff.1 hleast] at hmem
    cases hmem
  | some other =>
    obtain ⟨hmem', hle'⟩ := least?_mem_and_le hleast
    by_cases heq : other = item
    · rw [heq]
    · rcases before_or_before heq with hlt | hlt
      · exact absurd hlt (hle other hmem')
      · exact absurd hlt (hle' item hmem)

/-- Only which entries there are matters for the least one. -/
theorem least?_congr {items items' : List QueueItem} (h : ∀ item, item ∈ items ↔ item ∈ items') :
    least? items = least? items' := by
  cases hleast : least? items' with
  | none =>
    rw [least?_eq_none_iff, List.eq_nil_iff_forall_not_mem] at hleast ⊢
    exact fun item hitem => hleast item ((h item).1 hitem)
  | some item =>
    rw [least?_eq_some_iff] at hleast ⊢
    exact ⟨(h item).2 hleast.1, fun other hother => hleast.2 other ((h other).1 hother)⟩

end QueueItem

/-! ## The set -/

/-- A queue without entries. -/
structure EagerSlot where
  /-- How clauses are weighed. -/
  weight : WeightFunction
  /-- Which clauses the queue accepts. -/
  accept : Acceptance
  /-- Clauses handed out in each turn. -/
  coefficient : Nat
  /-- Clauses handed out so far. -/
  served : Nat

/-- Live clauses and whose turn it is. -/
structure EagerPassive where
  /-- The live clauses in order of insertion. -/
  live : List ClauseId
  /-- The queues in order of their turns. -/
  slots : List EagerSlot
  /-- Whose turn it is. -/
  current : Nat
  /-- Clauses handed out in this turn. -/
  taken : Nat

namespace EagerPassive

/-- An empty set over queues with coefficients. -/
def start (queues : List (ClauseQueue × Nat)) : EagerPassive where
  live := []
  slots := queues.map fun q => ⟨q.1.weight, q.1.accept, q.2, 0⟩
  current := 0
  taken := 0

/-- Makes clauses live; a number that is not in the store is a fault. -/
def add (store : ClauseStore) (model : EagerPassive) : List ClauseId → Except Fault EagerPassive
  | [] => .ok model
  | id :: ids => do
    let _ ← store.get id
    add store { model with live := insertNew model.live id } ids

/-- Forgets a clause. -/
def remove (model : EagerPassive) (id : ClauseId) : EagerPassive :=
  { model with live := model.live.erase id }

/-- The live clauses that a queue accepts, with their weights. -/
def candidates (store : ClauseStore) (model : EagerPassive) (slot : EagerSlot) : List QueueItem :=
  model.live.filterMap (store.entryFor? slot.weight slot.accept)

/-- The set after a queue has handed out a clause in a turn in which it had handed out `taken` before. -/
def afterServing (model : EagerPassive) (position taken : Nat) (slot : EagerSlot) (id : ClauseId) :
    EagerPassive where
  live := model.live.erase id
  slots := model.slots.set position { slot with served := slot.served + 1 }
  current := position
  taken := taken + 1

/-- A turn, given by the queue and how many clauses it has handed out in it: the queue hands out the
least live clause that it accepts, if there is one. -/
def serve? (store : ClauseStore) (model : EagerPassive) (turn : Nat × Nat) :
    Option (EagerPassive × ClauseId) :=
  model.slots[turn.1]?.bind fun slot =>
    (QueueItem.least? (model.candidates store slot)).map fun item =>
      (model.afterServing turn.1 turn.2 slot item.2, item.2)

theorem serve?_eq_map {store : ClauseStore} {model : EagerPassive} {turn : Nat × Nat} {slot : EagerSlot}
    (h : model.slots[turn.1]? = some slot) :
    model.serve? store turn =
      (QueueItem.least? (model.candidates store slot)).map fun item =>
        (model.afterServing turn.1 turn.2 slot item.2, item.2) := by
  rw [serve?, h, Option.bind_some]

/-- What a turn gives does not depend on the cursor. -/
theorem serve?_congr {store : ClauseStore} {model model' : EagerPassive}
    (hlive : model.live = model'.live) (hslots : model.slots = model'.slots) :
    model.serve? store = model'.serve? store := by
  funext turn
  simp only [serve?, candidates, afterServing, hlive, hslots]

/-- Whether the queue under the cursor may hand out more in its turn. -/
def isOpen (model : EagerPassive) : Bool :=
  match model.slots[model.current]? with
  | some slot => model.taken < slot.coefficient
  | none => false

/-- New turns of `count` queues in cyclic order. -/
def freshTurns (model : EagerPassive) (first count : Nat) : List (Nat × Nat) :=
  (List.range count).map fun i => ((first + i) % model.slots.length, 0)

theorem freshTurns_succ (model : EagerPassive) (first count : Nat) :
    model.freshTurns first (count + 1) =
      (first % model.slots.length, 0) :: model.freshTurns (first + 1) count := by
  simp only [freshTurns, List.range_succ_eq_map, List.map_cons, List.map_map, Nat.add_zero]
  congr 1
  refine List.map_congr_left fun i _ => ?_
  simp only [Function.comp_apply, Nat.succ_eq_add_one]
  rw [Nat.add_right_comm, Nat.add_assoc]

/-- Gives a new turn to a queue. -/
def turnTo (model : EagerPassive) (position : Nat) : EagerPassive :=
  { model with current := position % model.slots.length, taken := 0 }

theorem turnTo_turnTo (model : EagerPassive) (position offset : Nat) :
    (model.turnTo position).turnTo ((model.turnTo position).current + offset) =
      model.turnTo (position + offset) := by
  simp only [turnTo, Nat.mod_add_mod]

theorem freshTurns_turnTo (model : EagerPassive) (position offset count : Nat) :
    (model.turnTo position).freshTurns ((model.turnTo position).current + offset) count =
      model.freshTurns (position + offset) count := by
  simp only [freshTurns, turnTo, Nat.add_assoc, Nat.mod_add_mod]

/-- The turns in the order in which they are tried: the current one while it is not over, then a new one
for each queue, beginning with the next queue and ending with the current one. -/
def turns (model : EagerPassive) : List (Nat × Nat) :=
  let fresh := model.freshTurns (model.current + 1) model.slots.length
  if model.isOpen then (model.current, model.taken) :: fresh else fresh

/-- Gives the turn to the next queue, if there is one. -/
def pass (model : EagerPassive) : EagerPassive :=
  if model.slots.isEmpty then model else model.turnTo (model.current + 1)

/-- Hands out a clause in the first turn that has one; without one the turn passes. -/
def next (store : ClauseStore) (model : EagerPassive) : EagerPassive × Option ClauseId :=
  match model.turns.findSome? (model.serve? store) with
  | some (model, id) => (model, some id)
  | none => (model.pass, none)

/-! ## What is handed out -/

section

variable {store : ClauseStore} {model later : EagerPassive} {turn : Nat × Nat} {slot : EagerSlot}
  {id : ClauseId}

theorem serve?_eq_none_iff (h : model.slots[turn.1]? = some slot) :
    model.serve? store turn = none ↔ model.candidates store slot = [] := by
  rw [serve?_eq_map h, Option.map_eq_none_iff, QueueItem.least?_eq_none_iff]

/-- A clause that is handed out was live. -/
theorem serve?_eq_some (h : model.serve? store turn = some (later, id)) :
    ∃ slot, model.slots[turn.1]? = some slot ∧ id ∈ model.live ∧
      later = model.afterServing turn.1 turn.2 slot id := by
  obtain ⟨slot, hslot, hserved⟩ := Option.bind_eq_some_iff.1 h
  obtain ⟨item, hleast, hitem⟩ := Option.map_eq_some_iff.1 hserved
  cases hitem
  obtain ⟨id, hid, hentry⟩ := List.mem_filterMap.1 (QueueItem.least?_mem_and_le hleast).1
  rw [ClauseStore.entryFor?_eq_some hentry]
  exact ⟨slot, hslot, hid, rfl⟩

/-- Everything that handing out can do: a live clause goes, or the turn passes. -/
theorem next_cases (store : ClauseStore) (model : EagerPassive) :
    (∃ position taken slot id, model.slots[position]? = some slot ∧ id ∈ model.live ∧
      model.next store = (model.afterServing position taken slot id, some id)) ∨
    model.next store = (model.pass, none) := by
  rw [next]
  split
  · next later id hserved =>
    obtain ⟨turn, -, hserve⟩ := List.exists_of_findSome?_eq_some hserved
    obtain ⟨slot, hslot, hid, rfl⟩ := serve?_eq_some hserve
    exact Or.inl ⟨turn.1, turn.2, slot, id, hslot, hid, rfl⟩
  · exact Or.inr rfl

/-- New turns of all queues miss none. -/
theorem mem_freshTurns {position : Nat} (hcursor : model.current < model.slots.length)
    (h : position < model.slots.length) :
    (position, 0) ∈ model.freshTurns (model.current + 1) model.slots.length := by
  refine List.mem_map.2 ⟨(position + (model.slots.length - (model.current + 1))) %
    model.slots.length, List.mem_range.2 (Nat.mod_lt _ (Nat.zero_lt_of_lt h)), ?_⟩
  have hround : model.current + 1 + (position + (model.slots.length - (model.current + 1))) =
      position + model.slots.length := by omega
  rw [Nat.add_mod_mod, hround, Nat.add_mod_right, Nat.mod_eq_of_lt h]

/-- Nothing is handed out exactly when no queue accepts a live clause. -/
theorem next_eq_none_iff (hcursor : model.slots ≠ [] → model.current < model.slots.length) :
    (model.next store).2 = none ↔
      ∀ slot ∈ model.slots, ∀ id ∈ model.live, store.entryFor? slot.weight slot.accept id = none := by
  have hnext : (model.next store).2 = none ↔ ∀ turn ∈ model.turns, model.serve? store turn = none := by
    rw [next, ← List.findSome?_eq_none_iff]
    split <;> simp [*]
  rw [hnext]
  constructor
  · intro hturns slot hslot id hid
    obtain ⟨position, hlt, rfl⟩ := List.getElem_of_mem hslot
    have hfresh := mem_freshTurns (hcursor (List.ne_nil_of_mem hslot)) hlt
    have hturn : (position, 0) ∈ model.turns := by
      rw [turns]
      split
      · exact List.mem_cons_of_mem _ hfresh
      · exact hfresh
    have hnone := (serve?_eq_none_iff (List.getElem?_eq_getElem hlt)).1 (hturns _ hturn)
    exact List.filterMap_eq_nil_iff.1 hnone id hid
  · intro hrejected turn _
    cases hslot : model.slots[turn.1]? with
    | none => rw [serve?, hslot, Option.bind_none]
    | some slot =>
      rw [serve?_eq_none_iff hslot, candidates, List.filterMap_eq_nil_iff]
      exact hrejected slot (List.mem_of_getElem? hslot)

/-- In a turn, the order of the live clauses plays no part. -/
theorem serve?_withLive {live : List ClauseId} (hperm : model.live.Perm live) (turn : Nat × Nat) :
    serve? store { model with live } turn =
      (model.serve? store turn).map fun served =>
        ({ served.1 with live := live.erase served.2 }, served.2) := by
  cases hslot : model.slots[turn.1]? with
  | none => simp only [serve?, hslot, Option.bind_none, Option.map_none]
  | some slot =>
    have hleast : QueueItem.least? (candidates store { model with live } slot) =
        QueueItem.least? (model.candidates store slot) :=
      QueueItem.least?_congr fun item => (hperm.symm.filterMap _).mem_iff
    simp only [serve?, hslot, Option.bind_some, hleast, Option.map_map]
    rfl

/-- The order of the live clauses plays no part. -/
theorem next_withLive {live : List ClauseId} (hperm : model.live.Perm live) :
    next store { model with live } =
      ({ (model.next store).1 with live := (model.next store).2.elim live live.erase },
        (model.next store).2) := by
  have hserved : (turns { model with live }).findSome? (serve? store { model with live }) =
      (model.turns.findSome? (model.serve? store)).map fun served =>
        ({ served.1 with live := live.erase served.2 }, served.2) := by
    rw [List.map_findSome?]
    exact congrArg (model.turns.findSome? ·) (funext (serve?_withLive hperm))
  rw [next, next, hserved]
  cases model.turns.findSome? (model.serve? store) with
  | none =>
    simp only [Option.map_none, Option.elim_none, pass]
    split <;> rfl
  | some served => rfl

end

end EagerPassive

end GivenClause
