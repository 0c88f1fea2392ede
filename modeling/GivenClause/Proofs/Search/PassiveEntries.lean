import Mathlib.Data.Prod.Lex
import GivenClause.Proofs.Clause.StoreRuns
import GivenClause.Proofs.Data.Lists
import GivenClause.Search.Passive

/-! # Queue entries of a passive set

The queues of a passive set may hold entries of clauses that are no longer live, and a clause may become
live again while such an entry is still there. What keeps the queues usable is that no entry is ever
wrong (`PassiveSlot.Faithful`): each is the one that its queue would make now, and the entry of a live
clause that the queue accepts is always there.

* `ClauseStore.entryFor?` is the entry that a queue makes for a clause;
* `PassiveSet.Faithful` is what every operation keeps, shown here for adding, removing and cleaning;
* `PassiveSet.firstLive_cases` says what the search for a live entry gives, and
  `PassiveSet.takeFromCurrent_cases` what the turn of a queue does with it. -/

namespace GivenClause

open InsertionOrder

/-! ## The order of entries -/

namespace QueueItem

variable {a b c : QueueItem}

/-- Entries are ordered lexicographically. -/
theorem before_iff : before a b = true ↔ toLex a < toLex b := by
  simp [before, Prod.Lex.toLex_lt_toLex]

theorem not_before_self : ¬ before a a = true := by
  rw [before_iff]
  exact lt_irrefl _

theorem before_trans (hab : before a b = true) (hbc : before b c = true) : before a c = true := by
  rw [before_iff] at *
  exact hab.trans hbc

theorem before_asymm (h : before a b = true) : ¬ before b a = true :=
  fun h' => not_before_self (before_trans h h')

/-- Different entries are ordered one way or the other. -/
theorem before_or_before (h : a ≠ b) : before a b = true ∨ before b a = true := by
  rw [before_iff, before_iff]
  exact lt_or_gt_of_ne fun heq => h (toLex.injective heq)

@[simp] theorem mem_insert {items : List QueueItem} : a ∈ insert b items ↔ a = b ∨ a ∈ items := by
  induction items with
  | nil => simp [insert]
  | cons other items ih =>
    rw [insert]
    split
    · next heq => simp [heq]
    · split
      · simp
      · simp [ih, or_left_comm]

/-- Insertion keeps entries ascending. -/
theorem pairwise_insert {items : List QueueItem} (item : QueueItem)
    (h : items.Pairwise fun a b => before a b = true) :
    (insert item items).Pairwise fun a b => before a b = true := by
  induction items with
  | nil => simp [insert]
  | cons other items ih =>
    obtain ⟨hother, hitems⟩ := List.pairwise_cons.1 h
    rw [insert]
    split
    · exact h
    · next hne =>
      split
      · next hbefore =>
        refine List.pairwise_cons.2 ⟨?_, h⟩
        intro x hx
        rcases List.mem_cons.1 hx with rfl | hx
        · exact hbefore
        · exact before_trans hbefore (hother x hx)
      · next hbefore =>
        refine List.pairwise_cons.2 ⟨?_, ih hitems⟩
        intro x hx
        rcases mem_insert.1 hx with rfl | hx
        · exact (before_or_before hne).resolve_left hbefore
        · exact hother x hx

end QueueItem

/-! ## The entry of a clause -/

/-- A queue that looks only at what is fixed when a clause is made, and not at its descendants. -/
def ClauseQueue.Steady (queue : ClauseQueue) : Prop :=
  ∀ (clause : Clause) (descendants : List ClauseId),
    queue.weight.weigh { clause with descendants } = queue.weight.weigh clause ∧
      queue.accepts { clause with descendants } = queue.accepts clause

/-- The predefined queues are steady. -/
theorem ClauseQueue.steady_of_named {name : String} {queue : ClauseQueue}
    (h : named name = .ok queue) : queue.Steady := by
  rw [named] at h
  split at h
  · next weight accept hlookup =>
    cases h
    have hmem := mem_of_lookup_eq_some hlookup
    simp only [predefined, List.mem_cons, Prod.mk.injEq, List.not_mem_nil, or_false] at hmem
    rcases hmem with ⟨-, rfl, rfl⟩ | ⟨-, rfl, rfl⟩ | ⟨-, rfl, rfl⟩ | ⟨-, rfl, rfl⟩ | ⟨-, rfl, rfl⟩ |
      ⟨-, rfl, rfl⟩ | ⟨-, rfl, rfl⟩ | ⟨-, rfl, rfl⟩ | ⟨-, rfl, rfl⟩
    all_goals exact fun _ _ => ⟨rfl, rfl⟩
  · cases h

/-- The entry that a queue makes for a clause of the store, if it takes the clause in. -/
def ClauseStore.entryFor? (store : ClauseStore) (weight : WeightFunction) (accept : Acceptance)
    (id : ClauseId) : Option QueueItem :=
  match store.get? id with
  | some clause => if accept.accepts clause then some (weight.weigh clause, id) else none
  | none => none

namespace ClauseStore

variable {store later : ClauseStore} {weight : WeightFunction} {accept : Acceptance} {id : ClauseId}

/-- The entry of a clause carries its number. -/
theorem entryFor?_eq_some {item : QueueItem} (h : store.entryFor? weight accept id = some item) :
    item.2 = id := by
  rw [entryFor?] at h
  split at h
  · split at h
    · cases h
      rfl
    · cases h
  · cases h

/-- A queue makes no entry exactly for the clauses that it does not accept. -/
theorem entryFor?_eq_none_iff {clause : Clause} (h : store.get? id = some clause) :
    store.entryFor? weight accept id = none ↔ accept.accepts clause = false := by
  simp [entryFor?, h]

/-- The entry of a clause stays the same while the store grows. -/
theorem entryFor?_of_extends {queue : ClauseQueue} (hqueue : queue.Steady) (hext : store.Extends later)
    {clause : Clause} (h : store.get? id = some clause) :
    later.entryFor? queue.weight queue.accept id = store.entryFor? queue.weight queue.accept id := by
  obtain ⟨clause', hlater, hcontinues⟩ := hext.continues id clause h
  obtain ⟨hweight, haccept⟩ := hqueue clause clause'.descendants
  rw [← hcontinues.same] at hweight haccept
  simp only [ClauseQueue.accepts] at haccept
  simp only [entryFor?, h, hlater, hweight, haccept]

end ClauseStore

/-! ## Faithful queues -/

/-- The queue of a slot is usable for the live clauses: every entry is right, stale ones included, and
no live clause that the queue accepts is missing. -/
structure PassiveSlot.Faithful (store : ClauseStore) (live : List ClauseId) (slot : PassiveSlot) :
    Prop where
  /-- The queue gets a turn. -/
  positive : 0 < slot.coefficient
  /-- The queue looks only at what is fixed in a clause. -/
  steady : slot.queue.Steady
  /-- Entries are ascending. -/
  sorted : slot.queue.items.Pairwise fun a b => QueueItem.before a b = true
  /-- Every entry is the one that the queue would make now. -/
  sound : ∀ item ∈ slot.queue.items,
    store.entryFor? slot.queue.weight slot.queue.accept item.2 = some item
  /-- The entries of live clauses are there. -/
  complete : ∀ id ∈ live, ∀ item,
    store.entryFor? slot.queue.weight slot.queue.accept id = some item → item ∈ slot.queue.items

/-- A passive set whose queues are usable, with a cursor that points to one of them. -/
structure PassiveSet.Faithful (store : ClauseStore) (passive : PassiveSet) : Prop where
  /-- Clauses carry their numbers. -/
  numbered : store.Numbered
  /-- Live clauses are in the store. -/
  known : ∀ id ∈ passive.live, ∃ clause, store.get? id = some clause
  /-- Live clauses are listed once. -/
  nodup : passive.live.Nodup
  /-- Every queue is usable. -/
  slots : ∀ slot ∈ passive.slots, slot.Faithful store passive.live
  /-- The cursor points to a queue. -/
  cursor : passive.slots ≠ [] → passive.current < passive.slots.length

namespace PassiveSlot.Faithful

variable {store later : ClauseStore} {live live' : List ClauseId} {slot : PassiveSlot}

theorem known (h : slot.Faithful store live) {item : QueueItem}
    (hitem : item ∈ slot.queue.items) : ∃ clause, store.get? item.2 = some clause := by
  have hentry := h.sound item hitem
  rw [ClauseStore.entryFor?] at hentry
  split at hentry
  · next clause hclause => exact ⟨clause, hclause⟩
  · cases hentry

/-- Fewer live clauses leave some entries stale and all of them right. -/
theorem mono (h : slot.Faithful store live) (hlive : ∀ id ∈ live', id ∈ live) :
    slot.Faithful store live' :=
  { h with complete := fun id hid => h.complete id (hlive id hid) }

/-- Entries stay right while the store grows. -/
theorem of_extends (h : slot.Faithful store live) (hext : store.Extends later)
    (hknown : ∀ id ∈ live, ∃ clause, store.get? id = some clause) : slot.Faithful later live where
  positive := h.positive
  steady := h.steady
  sorted := h.sorted
  sound := by
    intro item hitem
    obtain ⟨clause, hclause⟩ := h.known hitem
    rw [ClauseStore.entryFor?_of_extends h.steady hext hclause]
    exact h.sound item hitem
  complete := by
    intro id hid item hentry
    obtain ⟨clause, hclause⟩ := hknown id hid
    rw [ClauseStore.entryFor?_of_extends h.steady hext hclause] at hentry
    exact h.complete id hid item hentry

/-- Entries may be dropped as long as those of live clauses stay. -/
theorem withItems (h : slot.Faithful store live) {items : List QueueItem} {served : Nat}
    (hsub : items.Sublist slot.queue.items)
    (hkept : ∀ item ∈ slot.queue.items, item.2 ∈ live' → item ∈ items)
    (hlive : ∀ id ∈ live', id ∈ live) :
    PassiveSlot.Faithful store live' { slot with queue := { slot.queue with items }, served } where
  positive := h.positive
  steady := h.steady
  sorted := h.sorted.sublist hsub
  sound := fun item hitem => h.sound item (hsub.subset hitem)
  complete := by
    intro id hid item hentry
    refine hkept item (h.complete id (hlive id hid) item hentry) ?_
    rwa [ClauseStore.entryFor?_eq_some hentry]

/-- Offering a clause to a queue makes it usable for that clause as well. -/
theorem add (h : slot.Faithful store live) {id : ClauseId} {clause : Clause}
    (hclause : store.get? id = some clause) (hid : clause.id = id)
    (hlive : ∀ i ∈ live', i ∈ live ∨ i = id) :
    PassiveSlot.Faithful store live' { slot with queue := slot.queue.add clause } := by
  rw [ClauseQueue.add]
  split
  · next haccept =>
    have hentry : store.entryFor? slot.queue.weight slot.queue.accept id =
        some (slot.queue.weight.weigh clause, id) := by
      rw [ClauseQueue.accepts] at haccept
      simp [ClauseStore.entryFor?, hclause, haccept]
    rw [hid]
    refine ⟨h.positive, h.steady, QueueItem.pairwise_insert _ h.sorted, ?_, ?_⟩
    · intro item hitem
      rcases QueueItem.mem_insert.1 hitem with rfl | hitem
      · exact hentry
      · exact h.sound item hitem
    · intro i hi item hitem
      rw [QueueItem.mem_insert]
      rcases hlive i hi with hi | rfl
      · exact Or.inr (h.complete i hi item hitem)
      · exact Or.inl (Option.some.inj (hitem.symm.trans hentry))
  · next haccept =>
    refine { h with complete := fun i hi item hitem => ?_ }
    rcases hlive i hi with hi | rfl
    · exact h.complete i hi item hitem
    · rw [(ClauseStore.entryFor?_eq_none_iff hclause).2 (by simpa [ClauseQueue.accepts] using haccept)]
        at hitem
      cases hitem

end PassiveSlot.Faithful

namespace PassiveSet

variable {store later : ClauseStore} {passive : PassiveSet}

theorem contains_iff {id : ClauseId} : passive.contains id = true ↔ id ∈ passive.live := by
  simp [contains]

/-- A new passive set over empty queues is faithful. -/
theorem faithful_new {queues : List (ClauseQueue × Nat)} (hpositive : ∀ q ∈ queues, 0 < q.2)
    (hempty : ∀ q ∈ queues, q.1.items = []) (hsteady : ∀ q ∈ queues, q.1.Steady)
    (hstore : store.Numbered) :
    Faithful store
      { slots := queues.map fun q => { queue := q.1, coefficient := q.2 } } := by
  refine ⟨hstore, nofun, List.nodup_nil, ?_, fun h => List.length_pos_iff.2 h⟩
  intro slot hslot
  obtain ⟨q, hq, rfl⟩ := List.mem_map.1 hslot
  have hitems := hempty q hq
  refine ⟨hpositive q hq, hsteady q hq, ?_, ?_, nofun⟩
  · rw [hitems]
    exact .nil
  · intro item hitem
    rw [hitems] at hitem
    cases hitem

namespace Faithful

/-- A growing store keeps a passive set faithful. -/
theorem of_extends (h : Faithful store passive) (hext : store.Extends later)
    (hnumbered : later.Numbered) : Faithful later passive where
  numbered := hnumbered
  known := fun id hid => hext.exists_get? (h.known id hid)
  nodup := h.nodup
  slots := fun slot hslot => (h.slots slot hslot).of_extends hext h.known
  cursor := h.cursor

/-- The counters play no part. -/
theorem withCounters (h : Faithful store passive) (counters : PassiveStats) :
    Faithful store { passive with counters } :=
  ⟨h.numbered, h.known, h.nodup, h.slots, h.cursor⟩

/-- Making a clause live and offering it to the queues keeps a passive set faithful. -/
theorem insert (h : Faithful store passive) {id : ClauseId} {clause : Clause}
    (hclause : store.get? id = some clause) :
    Faithful store (offer { passive with live := insertNew passive.live id } clause) where
  numbered := h.numbered
  known := by
    intro i hi
    rcases mem_insertNew.1 hi with hi | rfl
    · exact h.known i hi
    · exact ⟨clause, hclause⟩
  nodup := nodup_insertNew id h.nodup
  slots := by
    intro slot' hslot'
    obtain ⟨slot, hslot, rfl⟩ := List.mem_map.1 hslot'
    exact (h.slots slot hslot).add hclause (h.numbered id clause hclause)
      fun i hi => mem_insertNew.1 hi
  cursor := by simpa [offer] using h.cursor

/-- Removing a clause keeps a passive set faithful. -/
theorem remove (h : Faithful store passive) (id : ClauseId) :
    Faithful store (passive.remove id).1 where
  numbered := h.numbered
  known := fun i hi => h.known i (List.mem_of_mem_erase hi)
  nodup := h.nodup.erase id
  slots := fun slot hslot => (h.slots slot hslot).mono fun _ hi => List.mem_of_mem_erase hi
  cursor := h.cursor

/-- Cleaning keeps a passive set faithful. -/
theorem clean (h : Faithful store passive) : Faithful store passive.clean.1 where
  numbered := h.numbered
  known := h.known
  nodup := h.nodup
  slots := by
    intro slot' hslot'
    simp only [PassiveSet.clean, List.map_map, List.mem_map] at hslot'
    obtain ⟨slot, hslot, rfl⟩ := hslot'
    refine (h.slots slot hslot).withItems List.filter_sublist ?_ fun _ hid => hid
    intro item hitem hlive
    exact List.mem_filter.2 ⟨hitem, contains_iff.2 hlive⟩
  cursor := by simpa [PassiveSet.clean] using h.cursor

/-- Moving the cursor keeps a passive set faithful. -/
theorem advance (h : Faithful store passive) : Faithful store passive.advance where
  numbered := h.numbered
  known := h.known
  nodup := h.nodup
  slots := h.slots
  cursor := fun hne => Nat.mod_lt _ (List.length_pos_iff.2 hne)

end Faithful

/-! ## The first live entry -/

/-- The search for a live entry drops the stale entries in front of it, or all entries when none is
live. -/
theorem firstLive_cases (live : ClauseId → Bool) (items : List QueueItem) :
    (∃ stale, firstLive live items = (stale, none, []) ∧ ∀ item ∈ items, live item.2 = false) ∨
    ∃ dropped item rest, items = dropped ++ item :: rest ∧ (∀ d ∈ dropped, live d.2 = false) ∧
      live item.2 = true ∧ firstLive live items = (dropped.length, some item.2, rest) := by
  induction items with
  | nil => exact Or.inl ⟨0, rfl, nofun⟩
  | cons item items ih =>
    by_cases hlive : live item.2 = true
    · exact Or.inr ⟨[], item, items, rfl, nofun, hlive, if_pos hlive⟩
    · have hstale := Bool.eq_false_iff.2 hlive
      rcases ih with ⟨stale, hfirst, hall⟩ | ⟨dropped, found, rest, rfl, hdropped, hfound, hfirst⟩
      · refine Or.inl ⟨stale + 1, by rw [firstLive, if_neg hlive, hfirst], ?_⟩
        simpa [hstale] using hall
      · refine Or.inr ⟨item :: dropped, found, rest, rfl, ?_, hfound, ?_⟩
        · simpa [hstale] using hdropped
        · rw [firstLive, if_neg hlive, hfirst]
          rfl

/-- Everything that the turn of the queue under the cursor can do: it is over, no entry is live, or the
first live entry is handed out. -/
theorem takeFromCurrent_cases {slot : PassiveSlot}
    (hslot : passive.slots[passive.current]? = some slot) :
    (slot.coefficient ≤ passive.taken ∧ passive.takeFromCurrent = (passive, none)) ∨
    (passive.taken < slot.coefficient ∧
      (∀ item ∈ slot.queue.items, passive.contains item.2 = false) ∧
      ∃ counters, passive.takeFromCurrent =
        ({ passive with
            slots := passive.slots.set passive.current
              { slot with queue := { slot.queue with items := [] } }
            counters },
          none)) ∨
    (passive.taken < slot.coefficient ∧ ∃ dropped item rest counters,
      slot.queue.items = dropped ++ item :: rest ∧
      (∀ d ∈ dropped, passive.contains d.2 = false) ∧ passive.contains item.2 = true ∧
      passive.takeFromCurrent =
        ({ passive with
            live := passive.live.erase item.2
            slots := passive.slots.set passive.current
              { slot with queue := { slot.queue with items := rest }, served := slot.served + 1 }
            taken := passive.taken + 1
            counters },
          some item.2)) := by
  rw [takeFromCurrent, hslot]
  dsimp only
  by_cases hopen : passive.taken < slot.coefficient
  · rw [if_pos hopen]
    rcases firstLive_cases passive.contains slot.queue.items with
      ⟨stale, hfirst, hstale⟩ | ⟨dropped, item, rest, hitems, hdropped, hlive, hfirst⟩
    · rw [hfirst]
      exact Or.inr (Or.inl ⟨hopen, hstale, _, rfl⟩)
    · rw [hfirst]
      exact Or.inr (Or.inr ⟨hopen, dropped, item, rest, _, hitems, hdropped, hlive, rfl⟩)
  · rw [if_neg hopen]
    exact Or.inl ⟨Nat.le_of_not_lt hopen, rfl⟩

end PassiveSet

end GivenClause
