import GivenClause.Proofs.Search.PassiveRuns

/-! # Additions that meet an unknown clause

Clauses are added to a passive set one after the other: each that is not live becomes live, is looked up in
the store and is offered to every queue, and how many there were is counted at the end. A number that is not
in the store stops the addition between the first and the second step. All clauses in front of it are added
then and not counted, and the number itself is live without any queue having been offered it.

* `PassiveSet.takeIn` makes clauses live and offers them, `PassiveSlot.mem_offerAll` says which entries that
  gives;
* `PassiveSet.addFrom_eq` is what an addition does, with and without an unknown number;
* `PassiveSlot.Holds` is a queue that has an entry of a clause if it accepts it, and
  `PassiveSet.holds_takeIn` says that offered clauses are held;
* `PassiveSet.add_at_unknown_clause` describes all failed additions, and `PassiveSet.half_added_clause` is
  one of them. -/

namespace GivenClause

open InsertionOrder

/-! ## Offered clauses -/

namespace ClauseQueue

/-- Adding a clause changes the entries only. -/
theorem add_eq (queue : ClauseQueue) (clause : Clause) :
    queue.add clause = { queue with items := (queue.add clause).items } := by
  rw [add]
  split <;> rfl

/-- The only new entry is that of the clause, if the queue accepts it. -/
theorem mem_items_add {queue : ClauseQueue} {clause : Clause} {item : QueueItem} :
    item ∈ (queue.add clause).items ↔ item ∈ queue.items ∨
      queue.accepts clause = true ∧ item = (queue.weight.weigh clause, clause.id) := by
  rw [add]
  by_cases haccepts : queue.accepts clause = true <;> simp [haccepts, or_comm]

end ClauseQueue

/-- The entry of a clause is made from its weight and its number. -/
theorem ClauseStore.entryFor?_eq_some_iff {store : ClauseStore} {weight : WeightFunction}
    {accept : Acceptance} {id : ClauseId} {item : QueueItem} :
    store.entryFor? weight accept id = some item ↔ ∃ clause, store.get? id = some clause ∧
      accept.accepts clause = true ∧ item = (weight.weigh clause, id) := by
  rw [entryFor?]
  cases store.get? id <;> simp [eq_comm (b := item)]

namespace PassiveSlot

/-- Offers clauses to the queue of a slot, first to last. -/
def offerAll (slot : PassiveSlot) (clauses : List Clause) : PassiveSlot :=
  { slot with queue := clauses.foldl ClauseQueue.add slot.queue }

theorem offerAll_cons (slot : PassiveSlot) (clause : Clause) (clauses : List Clause) :
    slot.offerAll (clause :: clauses) =
      offerAll { slot with queue := slot.queue.add clause } clauses := rfl

/-- Offering clauses changes the entries only. -/
theorem offerAll_eq (slot : PassiveSlot) (clauses : List Clause) :
    slot.offerAll clauses =
      { slot with queue := { slot.queue with items := (slot.offerAll clauses).queue.items } } := by
  induction clauses generalizing slot with
  | nil => rfl
  | cons clause clauses ih =>
    rw [offerAll_cons, ih, slot.queue.add_eq]

/-- The new entries are those of the offered clauses that the queue accepts. -/
theorem mem_offerAll {slot : PassiveSlot} {clauses : List Clause} {item : QueueItem} :
    item ∈ (slot.offerAll clauses).queue.items ↔ item ∈ slot.queue.items ∨
      ∃ clause ∈ clauses, slot.queue.accepts clause = true ∧
        item = (slot.queue.weight.weigh clause, clause.id) := by
  induction clauses generalizing slot with
  | nil => simp [offerAll]
  | cons clause clauses ih =>
    -- the queue weighs and accepts as before when it has been offered the first clause
    rw [offerAll_cons, ih, ClauseQueue.mem_items_add, slot.queue.add_eq]
    simp [ClauseQueue.accepts, or_assoc]

/-- A queue has an entry of a clause if it accepts the clause. -/
def Holds (store : ClauseStore) (id : ClauseId) (slot : PassiveSlot) : Prop :=
  ∀ clause, store.get? id = some clause → slot.queue.accepts clause = true →
    ∃ item ∈ slot.queue.items, item.2 = id

variable {store : ClauseStore} {slot : PassiveSlot} {id : ClauseId} {clauses : List Clause}

/-- A clause is still held after others were offered. -/
theorem Holds.offerAll (h : slot.Holds store id) (clauses : List Clause) :
    (slot.offerAll clauses).Holds store id := by
  intro clause hclause haccepts
  rw [offerAll_eq] at haccepts
  obtain ⟨item, hitem, hid⟩ := h clause hclause haccepts
  exact ⟨item, mem_offerAll.2 (Or.inl hitem), hid⟩

/-- An offered clause is held. -/
theorem holds_offerAll (hnumbered : store.Numbered) {clause : Clause}
    (hclause : store.get? id = some clause) (hmem : clause ∈ clauses) :
    (slot.offerAll clauses).Holds store id := by
  intro clause' hclause' haccepts
  cases hclause.symm.trans hclause'
  rw [offerAll_eq] at haccepts
  exact ⟨_, mem_offerAll.2 (Or.inr ⟨clause, hmem, haccepts, rfl⟩), hnumbered id clause hclause⟩

end PassiveSlot

/-! ## What an addition does -/

/-- The numbers among `ids` that are not live yet, in the order in which they become live, all of them in the
store. -/
structure Newcomers (store : ClauseStore) (live ids newcomers : List ClauseId) : Prop where
  /-- They come after those that are live. -/
  joined : insertAll live ids = live ++ newcomers
  /-- They are in the store. -/
  known : ∀ id ∈ newcomers, ∃ clause, store.get? id = some clause

namespace Newcomers

variable {store : ClauseStore} {live ids newcomers : List ClauseId} {id : ClauseId}

theorem nil (store : ClauseStore) (live : List ClauseId) : Newcomers store live [] [] :=
  ⟨(List.append_nil live).symm, fun _ h => absurd h List.not_mem_nil⟩

theorem cons_live (h : Newcomers store live ids newcomers) (hid : id ∈ live) :
    Newcomers store live (id :: ids) newcomers :=
  ⟨by rw [insertAll_cons, insertNew_of_mem hid, h.joined], h.known⟩

theorem cons_new (h : Newcomers store (live ++ [id]) ids newcomers) (hid : id ∉ live)
    (hknown : ∃ clause, store.get? id = some clause) :
    Newcomers store live (id :: ids) (id :: newcomers) := by
  refine ⟨?_, List.forall_mem_cons.2 ⟨hknown, h.known⟩⟩
  rw [insertAll_cons, insertNew_of_not_mem hid, h.joined, List.append_assoc, List.singleton_append]

theorem mem_iff (h : Newcomers store live ids newcomers) :
    id ∈ live ++ newcomers ↔ id ∈ live ∨ id ∈ ids := by
  rw [← h.joined, mem_insertAll]

end Newcomers

namespace PassiveSet

/-- Makes clauses live that are not, and offers them to every queue. -/
def takeIn (store : ClauseStore) (newcomers : List ClauseId) (passive : PassiveSet) : PassiveSet :=
  { passive with
    live := passive.live ++ newcomers
    slots := passive.slots.map (·.offerAll (newcomers.filterMap store.get?)) }

variable {store : ClauseStore} {passive : PassiveSet} {newcomers : List ClauseId} {id : ClauseId}

theorem takeIn_nil (store : ClauseStore) (passive : PassiveSet) : passive.takeIn store [] = passive := by
  simp [takeIn, PassiveSlot.offerAll]

theorem takeIn_cons {clause : Clause} (hclause : store.get? id = some clause) :
    passive.takeIn store (id :: newcomers) =
      takeIn store newcomers (offer { passive with live := passive.live ++ [id] } clause) := by
  simp only [takeIn, offer, List.filterMap_cons_some hclause, List.append_assoc, List.singleton_append,
    List.map_map]
  rfl

/-- What an addition does. It takes in the clauses that are not live; or it takes in those before the first
number that is neither live nor in the store, makes this number live and stops. -/
theorem addFrom_eq (store : ClauseStore) (fresh : Nat) (passive : PassiveSet) (ids : List ClauseId) :
    (∃ newcomers, Newcomers store passive.live ids newcomers ∧
      addFrom store fresh passive ids =
        (passive.takeIn store newcomers, .ok (fresh + newcomers.length))) ∨
    ∃ before unknown after newcomers, ids = before ++ unknown :: after ∧
      Newcomers store passive.live before newcomers ∧ unknown ∉ passive.live ++ newcomers ∧
      store.get? unknown = none ∧
      addFrom store fresh passive ids =
        ({ passive.takeIn store newcomers with live := passive.live ++ newcomers ++ [unknown] },
          .error (.unknownClause store.size unknown)) := by
  induction ids generalizing passive fresh with
  | nil =>
    refine Or.inl ⟨[], .nil store passive.live, ?_⟩
    rw [addFrom, takeIn_nil]
    rfl
  | cons id ids ih =>
    rw [addFrom]
    by_cases hlive : id ∈ passive.live
    · rw [if_pos (contains_iff.2 hlive)]
      rcases ih fresh passive with ⟨newcomers, hnew, hadd⟩ |
        ⟨before, unknown, after, newcomers, rfl, hnew, hfresh, hunknown, hadd⟩
      · exact Or.inl ⟨newcomers, hnew.cons_live hlive, hadd⟩
      · exact Or.inr ⟨id :: before, unknown, after, newcomers, rfl, hnew.cons_live hlive, hfresh,
          hunknown, hadd⟩
    · rw [if_neg (mt contains_iff.1 hlive), insertNew_of_not_mem hlive]
      cases hclause : store.get? id with
      | none =>
        -- the number is live before it is looked up
        refine Or.inr ⟨[], id, ids, [], rfl, .nil store passive.live, by simpa using hlive, hclause, ?_⟩
        rw [ClauseStore.get, hclause, takeIn_nil, List.append_nil]
      | some clause =>
        rw [ClauseStore.get_eq_ok_iff.2 hclause]
        have hknown : ∃ clause, store.get? id = some clause := ⟨clause, hclause⟩
        rcases ih (fresh + 1) (offer { passive with live := passive.live ++ [id] } clause) with
          ⟨newcomers, hnew, hadd⟩ |
          ⟨before, unknown, after, newcomers, rfl, hnew, hfresh, hunknown, hadd⟩
        · refine Or.inl ⟨id :: newcomers, hnew.cons_new hlive hknown, hadd.trans ?_⟩
          rw [takeIn_cons hclause, List.length_cons, Nat.add_assoc, Nat.add_comm 1]
        · refine Or.inr ⟨id :: before, unknown, after, id :: newcomers, rfl, hnew.cons_new hlive hknown,
            ?_, hunknown, hadd.trans ?_⟩
          · simpa [offer] using hfresh
          · rw [takeIn_cons hclause]
            simp [offer]

/-- Clauses taken in are held by every queue that accepts them, and so are those that were held before. -/
theorem holds_takeIn (hnumbered : store.Numbered)
    (hknown : ∀ id ∈ newcomers, ∃ clause, store.get? id = some clause)
    (hheld : ∀ slot ∈ passive.slots, ∀ id ∈ passive.live, slot.Holds store id) :
    ∀ slot ∈ (passive.takeIn store newcomers).slots, ∀ id ∈ passive.live ++ newcomers,
      slot.Holds store id := by
  intro slot' hslot' id hid
  obtain ⟨slot, hslot, rfl⟩ := List.mem_map.1 hslot'
  rcases List.mem_append.1 hid with hold | hnew
  · exact (hheld slot hslot id hold).offerAll _
  · obtain ⟨clause, hclause⟩ := hknown id hnew
    exact PassiveSlot.holds_offerAll hnumbered hclause (List.mem_filterMap.2 ⟨id, hnew, hclause⟩)

/-- The entries of a queue after clauses were taken in: those that it had, and those that it makes for the
clauses. -/
theorem mem_items_takeIn (hnumbered : store.Numbered) {slot : PassiveSlot} {item : QueueItem} :
    item ∈ (slot.offerAll (newcomers.filterMap store.get?)).queue.items ↔ item ∈ slot.queue.items ∨
      ∃ id ∈ newcomers, store.entryFor? slot.queue.weight slot.queue.accept id = some item := by
  simp only [PassiveSlot.mem_offerAll, List.mem_filterMap, ClauseStore.entryFor?_eq_some_iff]
  constructor
  · rintro (hold | ⟨clause, ⟨id, hid, hclause⟩, haccepts, rfl⟩)
    · exact Or.inl hold
    · exact Or.inr ⟨id, hid, clause, hclause, haccepts, by rw [hnumbered id clause hclause]⟩
  · rintro (hold | ⟨id, hid, clause, hclause, haccepts, rfl⟩)
    · exact Or.inl hold
    · exact Or.inr ⟨clause, ⟨id, hid, hclause⟩, haccepts, by rw [hnumbered id clause hclause]⟩

/-- **What an addition leaves behind when it stops at an unknown clause.** The fault names the first number of
the batch that is neither live nor in the store. The clauses in front of it that were not live are live now,
in their order, and every queue has been offered each of them; if the queues held all live clauses before,
they hold these, too. The unknown number is live as well, and no queue has been offered it. Neither the
clauses nor the number are counted as added, and nothing else has changed. -/
theorem add_at_unknown_clause (ordering : TermOrder) (selector : Selector) (made : List StoreCall)
    (passive : PassiveSet) (ids : List ClauseId) {fault : Fault}
    (h : (passive.add ((ClauseStore.new ordering selector).performAll made) ids).2 = .error fault) :
    let store := (ClauseStore.new ordering selector).performAll made
    let later := (passive.add store ids).1
    ∃ before unknown after newcomers, ids = before ++ unknown :: after ∧
      fault = .unknownClause store.size unknown ∧ store.get? unknown = none ∧
      unknown ∉ passive.live ∧ unknown ∉ before ∧ Newcomers store passive.live before newcomers ∧
      later.live = passive.live ++ newcomers ++ [unknown] ∧
      later = { passive with live := later.live, slots := later.slots } ∧
      (∀ (i : Nat) (slot : PassiveSlot), passive.slots[i]? = some slot → ∃ items,
        later.slots[i]? = some { slot with queue := { slot.queue with items } } ∧
        ∀ item, item ∈ items ↔ item ∈ slot.queue.items ∨
          ∃ id ∈ newcomers, store.entryFor? slot.queue.weight slot.queue.accept id = some item) ∧
      ((∀ slot ∈ passive.slots, ∀ id ∈ passive.live, slot.Holds store id) →
        ∀ slot ∈ later.slots, ∀ id ∈ passive.live ++ newcomers, slot.Holds store id) ∧
      later.stats.added = passive.stats.added ∧
      later.stats.size = passive.stats.size + newcomers.length + 1 := by
  intro store later
  have hnumbered : store.Numbered := (ClauseStore.numbered_new ordering selector).performAll made
  rcases addFrom_eq store 0 passive ids with ⟨newcomers, -, hadd⟩ |
    ⟨before, unknown, after, newcomers, hids, hnew, hfresh, hunknown, hadd⟩
  · rw [add, hadd] at h
    cases h
  · have hresult : passive.add store ids =
        ({ passive.takeIn store newcomers with live := passive.live ++ newcomers ++ [unknown] },
          .error (.unknownClause store.size unknown)) := by
      rw [add, hadd]
    have hlater : later =
        { passive.takeIn store newcomers with live := passive.live ++ newcomers ++ [unknown] } := by
      show (passive.add store ids).1 = _
      rw [hresult]
    have hfault : fault = .unknownClause store.size unknown := by
      rw [hresult] at h
      cases h
      rfl
    rw [hnew.mem_iff, not_or] at hfresh
    rw [hlater]
    refine ⟨before, unknown, after, newcomers, hids, hfault, hunknown, hfresh.1, hfresh.2, hnew, rfl, rfl,
      ?_, holds_takeIn hnumbered hnew.known, rfl, ?_⟩
    · intro i slot hslot
      refine ⟨_, ?_, fun item => mem_items_takeIn hnumbered⟩
      rw [← PassiveSlot.offerAll_eq]
      simp [takeIn, hslot]
    · simp [stats, size, takeIn, Nat.add_assoc]

/-- A batch with a number that is in no store, between clauses that are. -/
theorem add_at_unknown_clause_between :
    let store := (ClauseStore.new (.kbo {}) (.preset .none)).performAll [.create inequality]
    ∃ empty, new fifoAndGoals = .ok empty ∧
      (empty.add store [1, 0, 1, 7, 0]).2 = .error (.unknownClause 2 7) ∧
      7 ∈ (empty.add store [1, 0, 1, 7, 0]).1.live ∧
      (empty.add store [1, 0, 1, 7, 0]).1.stats.added = 0 := by
  intro store
  obtain ⟨empty, hnew⟩ : ∃ empty, new fifoAndGoals = .ok empty := ⟨_, rfl⟩
  have hfault : (empty.add store [1, 0, 1, 7, 0]).2 = .error (.unknownClause 2 7) := by
    cases hnew
    rw [show store = inequalityStore from rfl, inequalityStore_eq]
    rfl
  obtain ⟨before, unknown, after, newcomers, -, hunknown, -, -, -, -, hlive, -, -, -, hadded, -⟩ :=
    add_at_unknown_clause (.kbo {}) (.preset .none) [.create inequality] empty [1, 0, 1, 7, 0] hfault
  obtain ⟨-, rfl⟩ := Fault.unknownClause.inj hunknown
  refine ⟨empty, hnew, hfault, by rw [hlive]; simp, hadded.trans ?_⟩
  cases hnew
  rfl

/-- Adding the goal and then a number that is in no store: the number is live and in no queue, and the goal,
which is in both queues, is not counted. -/
theorem half_added_clause :
    ∃ empty, new fifoAndGoals = .ok empty ∧
      let failed := empty.add inequalityStore [1, 7]
      failed.2 = .error (.unknownClause 2 7) ∧ failed.1.live = [1, 7] ∧
        failed.1.slots.map (·.queue.items) = [[(1, 1)], [(3, 1)]] ∧ failed.1.stats.added = 0 := by
  refine ⟨_, rfl, ?_⟩
  rw [inequalityStore_eq]
  decide +kernel

end PassiveSet

end GivenClause
