import Mathlib.Algebra.Ring.Nat
import GivenClause.Proofs.Search.PassiveRuns

/-! # The turns of a queue by age

A passive set hands out clauses in turns. Where one of its queues takes in all clauses, oldest first, the
other queues can put off a live clause only until the turn of that queue comes, whatever they weigh, accept
or still hold.

* `Round` is how far the turns have come; `Round.delay` bounds how many clauses are handed out until a
  turn is reached, and every step but the turn itself brings it nearer;
* `PassiveSet.AgeFair` says that the queue by age is usable, and every call keeps it so;
* `PassiveSet.AgeFair.next_serves`: while a clause waits, a request hands out the clause, an older one, or
  one from the turn of another queue (`PassiveSet.AgeFair.Serves`). -/

namespace GivenClause

open InsertionOrder

/-! ## Rounds -/

/-- How far the queues have come with taking turns. -/
structure Round where
  /-- The length of each turn. -/
  turns : List Nat
  /-- Whose turn it is. -/
  current : Nat
  /-- Clauses handed out in this turn. -/
  taken : Nat

namespace Round

/-- The length of all turns before a given one. -/
def before (round : Round) (position : Nat) : Nat :=
  (round.turns.take position).sum

/-- Where the round is, were all turns used in full. -/
def now (round : Round) : Nat :=
  round.before round.current + round.taken

/-- How many clauses may be handed out in other turns until the one at `position` is reached: what is
left before it in this round or, when it is over, what is left of the round and before it in the next. -/
def delay (round : Round) (position : Nat) : Nat :=
  if round.now < round.before (position + 1) then round.before position - round.now
  else round.turns.sum - round.now + round.before position

/-- How often the cursor moves until the turn at `position` is reached. -/
def moves (round : Round) (position : Nat) : Nat :=
  if round.now < round.before (position + 1) then position - round.current
  else round.turns.length - round.current + position

/-- A clause is handed out. -/
def serve (round : Round) : Round :=
  { round with taken := round.taken + 1 }

/-- The cursor moves. -/
def advance (round : Round) : Round :=
  { round with current := (round.current + 1) % round.turns.length, taken := 0 }

/-- The cursor points to a turn and no more than its length was taken. -/
structure Valid (round : Round) : Prop where
  /-- The cursor points to a turn. -/
  current_lt : round.current < round.turns.length
  /-- The turn is not exceeded. -/
  now_le : round.now ≤ round.before (round.current + 1)

variable {round : Round} {position turn : Nat}

theorem before_succ (h : round.turns[position]? = some turn) :
    round.before (position + 1) = round.before position + turn := by
  rw [before, before, List.take_add_one, h]
  simp

theorem before_mono {earlier later : Nat} (h : earlier ≤ later) :
    round.before earlier ≤ round.before later := by
  obtain ⟨rest, hrest⟩ : round.turns.take earlier <+: round.turns.take later :=
    List.take_prefix_take_left h
  rw [before, before, ← hrest, List.sum_append]
  exact Nat.le_add_right _ _

theorem before_le_sum (round : Round) (position : Nat) : round.before position ≤ round.turns.sum := by
  obtain ⟨rest, hrest⟩ := List.take_prefix position round.turns
  calc round.before position ≤ round.before position + rest.sum := Nat.le_add_right _ _
    _ = round.turns.sum := by rw [before, ← List.sum_append, hrest]

/-- A turn is ahead until it is over. -/
theorem Valid.now_lt_iff (h : round.Valid) (hturn : round.turns[position]? = some turn)
    (hpositive : 0 < turn) : round.now < round.before (position + 1) ↔
      round.current < position ∨ round.current = position ∧ round.taken < turn := by
  have hsucc := before_succ hturn
  rcases Nat.lt_trichotomy round.current position with hlt | heq | hgt
  · have hmono : round.before (round.current + 1) ≤ round.before position := before_mono hlt
    have hnow := h.now_le
    constructor
    · exact fun _ => Or.inl hlt
    · intro _
      omega
  · have hnow : round.now = round.before position + round.taken := by rw [now, heq]
    omega
  · have hmono : round.before (position + 1) ≤ round.before round.current := before_mono hgt
    have hnow : round.before round.current ≤ round.now := Nat.le_add_right _ _
    omega

/-- Other turns hand out at most the rest of a round. -/
theorem delay_le (hturn : round.turns[position]? = some turn) :
    round.delay position ≤ round.turns.sum - turn := by
  have hsucc := before_succ hturn
  have hsum := round.before_le_sum (position + 1)
  rw [delay]
  split <;> omega

theorem Valid.moves_le (h : round.Valid) (hturn : round.turns[position]? = some turn)
    (hpositive : 0 < turn) : round.moves position ≤ round.turns.length := by
  have hlt : position < round.turns.length := (List.getElem?_eq_some_iff.1 hturn).1
  have hahead := h.now_lt_iff hturn hpositive
  have hcurrent := h.current_lt
  rw [moves]
  split <;> omega

theorem Valid.serve (h : round.Valid) (hturn : round.turns[round.current]? = some turn)
    (hopen : round.taken < turn) : round.serve.Valid := by
  refine ⟨h.current_lt, ?_⟩
  have hsucc := before_succ hturn
  show round.before round.current + (round.taken + 1) ≤ round.before (round.current + 1)
  omega

/-- A clause handed out in another turn brings the turn at `position` nearer. -/
theorem Valid.delay_serve_lt (h : round.Valid) (hturn : round.turns[position]? = some turn)
    (hpositive : 0 < turn) {other : Nat} (hother : round.turns[round.current]? = some other)
    (hopen : round.taken < other) (hne : round.current ≠ position) :
    round.serve.delay position < round.delay position := by
  have hahead := h.now_lt_iff hturn hpositive
  have hahead' := (h.serve hother hopen).now_lt_iff hturn hpositive
  have hsucc := before_succ hother
  have hsum := round.before_le_sum (round.current + 1)
  have hnow : round.now = round.before round.current + round.taken := rfl
  have hnow' : round.serve.now = round.now + 1 := (Nat.add_assoc ..).symm
  have hbefore : ∀ i, round.serve.before i = round.before i := fun _ => rfl
  have hturns : round.serve.turns = round.turns := rfl
  have hcurrent : round.serve.current = round.current := rfl
  rw [hbefore, hcurrent] at hahead'
  rw [delay, delay, hturns, hbefore, hbefore, hnow']
  rcases Nat.lt_or_gt_of_ne hne with hlt | hgt
  · have hmono : round.before (round.current + 1) ≤ round.before position := before_mono hlt
    rw [if_pos (hnow' ▸ hahead'.2 (Or.inl hlt)), if_pos (hahead.2 (Or.inl hlt))]
    omega
  · rw [if_neg (by omega), if_neg (by omega)]
    omega

theorem Valid.advance (h : round.Valid) : round.advance.Valid := by
  have hpos : 0 < round.turns.length := Nat.zero_lt_of_lt h.current_lt
  refine ⟨Nat.mod_lt _ hpos, ?_⟩
  show round.before _ + 0 ≤ round.before (_ + 1)
  exact before_mono (Nat.le_succ _)

/-- Where the round is when the cursor has moved. -/
theorem Valid.now_advance (h : round.Valid) :
    round.advance.now =
      if round.current + 1 = round.turns.length then 0 else round.before (round.current + 1) := by
  show round.before ((round.current + 1) % round.turns.length) + 0 = _
  split
  · next hlast =>
    rw [hlast, Nat.mod_self]
    rfl
  · next hlast => rw [Nat.mod_eq_of_lt (Nat.lt_of_le_of_ne h.current_lt hlast), Nat.add_zero]

/-- When the turn at `position` is not the current one or is over, moving the cursor brings it nearer. -/
theorem Valid.advance_nearer (h : round.Valid) (hturn : round.turns[position]? = some turn)
    (hpositive : 0 < turn) (hpassed : ¬ (round.current = position ∧ round.taken < turn)) :
    round.advance.delay position ≤ round.delay position ∧
      round.advance.moves position < round.moves position := by
  have hlt : position < round.turns.length := (List.getElem?_eq_some_iff.1 hturn).1
  have hcurrent := h.current_lt
  have hnow := h.now_le
  have hahead := h.now_lt_iff hturn hpositive
  have hahead' := h.advance.now_lt_iff hturn hpositive
  have hbefore : ∀ i, round.advance.before i = round.before i := fun _ => rfl
  have hturns : round.advance.turns = round.turns := rfl
  have htaken : round.advance.taken = 0 := rfl
  have hsum := round.before_le_sum (round.current + 1)
  rw [delay, delay, moves, moves, hturns, hbefore, hbefore]
  rw [hbefore, htaken] at hahead'
  by_cases hlast : round.current + 1 = round.turns.length
  · -- a new round begins
    have hcurrent' : round.advance.current = 0 := by
      show (round.current + 1) % round.turns.length = 0
      rw [hlast, Nat.mod_self]
    have hnow' : round.advance.now = 0 := by rw [h.now_advance, if_pos hlast]
    rw [hcurrent', hnow']
    by_cases hlt' : round.current < position
    · omega
    · rw [if_pos (by omega), if_neg (by omega), if_pos (by omega), if_neg (by omega)]
      omega
  · have hcurrent' : round.advance.current = round.current + 1 :=
      Nat.mod_eq_of_lt (Nat.lt_of_le_of_ne hcurrent hlast)
    have hnow' : round.advance.now = round.before (round.current + 1) := by
      rw [h.now_advance, if_neg hlast]
    rw [hcurrent', hnow'] at hahead' ⊢
    by_cases hlt' : round.current < position
    · rw [if_pos (by omega), if_pos (by omega), if_pos (by omega), if_pos (by omega)]
      omega
    · rw [if_neg (by omega), if_neg (by omega), if_neg (by omega), if_neg (by omega)]
      omega

end Round

/-! ## Older clauses -/

namespace ClauseStore

/-- Whether a clause comes before another in a queue by age: its weight there is less, or the same with a
lower number. -/
def isOlder (store : ClauseStore) (id other : ClauseId) : Bool :=
  match store.entryFor? .age .all id, store.entryFor? .age .all other with
  | some a, some b => QueueItem.before a b
  | _, _ => false

variable {store later : ClauseStore} {id other : ClauseId}

theorem isOlder_iff : store.isOlder id other = true ↔
    ∃ a b, store.entryFor? .age .all id = some a ∧ store.entryFor? .age .all other = some b ∧
      QueueItem.before a b = true := by
  rw [isOlder]
  split
  · next a b ha hb => simp [ha, hb]
  · next hnone =>
    refine ⟨fun h => absurd h Bool.false_ne_true, ?_⟩
    rintro ⟨a, b, ha, hb, -⟩
    exact absurd hb (hnone a b ha)

/-- A clause is not older than one that is older than it. -/
theorem isOlder_asymm (h : store.isOlder id other = true) : store.isOlder other id = false := by
  obtain ⟨a, b, ha, hb, hbefore⟩ := isOlder_iff.1 h
  refine Bool.eq_false_iff.2 fun h' => ?_
  obtain ⟨b', a', hb', ha', hbefore'⟩ := isOlder_iff.1 h'
  rw [ha, Option.some.injEq] at ha'
  rw [hb, Option.some.injEq] at hb'
  subst ha' hb'
  exact QueueItem.before_asymm hbefore hbefore'

/-- Only clauses of the store are compared. -/
theorem exists_get?_of_isOlder (h : store.isOlder id other = true) :
    ∃ clause, store.get? other = some clause := by
  obtain ⟨-, b, -, hb, -⟩ := isOlder_iff.1 h
  rw [entryFor?] at hb
  split at hb
  · next clause hclause => exact ⟨clause, hclause⟩
  · cases hb

/-- Clauses do not age differently while the store grows. -/
theorem isOlder_of_extends (hextends : store.Extends later)
    (hid : ∃ clause, store.get? id = some clause) (hother : ∃ clause, store.get? other = some clause) :
    later.isOlder id other = store.isOlder id other := by
  have hsteady : ClauseQueue.Steady { name := "fifo", weight := .age, accept := .all } :=
    fun _ _ => ⟨rfl, rfl⟩
  obtain ⟨clause, hclause⟩ := hid
  obtain ⟨clause', hclause'⟩ := hother
  have hentry := entryFor?_of_extends hsteady hextends hclause
  have hentry' := entryFor?_of_extends hsteady hextends hclause'
  rw [isOlder, isOlder, hentry, hentry']

end ClauseStore

/-! ## A queue by age -/

/-- A queue that was filled with clauses of a store: its entries are ascending and right. -/
structure ClauseQueue.Filled (store : ClauseStore) (queue : ClauseQueue) : Prop where
  /-- Entries are ascending. -/
  sorted : queue.items.Pairwise fun a b => QueueItem.before a b = true
  /-- Every entry is the one that the queue makes for its clause. -/
  sound : ∀ item ∈ queue.items, store.entryFor? queue.weight queue.accept item.2 = some item

namespace PassiveSet

/-- How far the queues have come with taking turns. -/
def round (passive : PassiveSet) : Round where
  turns := passive.slots.map (·.coefficient)
  current := passive.current
  taken := passive.taken

/-- A passive set with turns of given lengths, whose queue at `position` takes in all clauses, oldest
first, and is usable. Nothing is said about the other queues. -/
structure AgeFair (store : ClauseStore) (turns : List Nat) (position : Nat) (passive : PassiveSet) :
    Prop where
  /-- Clauses carry their numbers. -/
  numbered : store.Numbered
  /-- Live clauses are in the store. -/
  known : ∀ id ∈ passive.live, ∃ clause, store.get? id = some clause
  /-- Live clauses are listed once. -/
  nodup : passive.live.Nodup
  /-- The lengths of the turns. -/
  turns_eq : passive.round.turns = turns
  /-- The cursor points to a turn, which is not exceeded. -/
  valid : passive.round.Valid
  /-- The queue by age. -/
  slot : ∃ slot, passive.slots[position]? = some slot ∧ slot.queue.weight = .age ∧
    slot.queue.accept = .all ∧ slot.Faithful store passive.live

variable {store later : ClauseStore} {turns : List Nat} {position : Nat} {passive : PassiveSet}
  {slot : PassiveSlot} {x : ClauseId}

/-- Replacing the slot under the cursor by one with other entries keeps the turns. -/
theorem round_setSlot (hslot : passive.slots[passive.current]? = some slot) (live : List ClauseId)
    (items : List QueueItem) (served taken : Nat) (counters : PassiveStats) :
    round
      { passive with
        live
        slots := passive.slots.set passive.current
          { slot with queue := { slot.queue with items }, served }
        taken, counters } = { passive.round with taken } := by
  have hturns : (passive.slots.set passive.current
      { slot with queue := { slot.queue with items }, served }).map (·.coefficient) =
      passive.slots.map (·.coefficient) := by
    obtain ⟨hlt, rfl⟩ := List.getElem?_eq_some_iff.1 hslot
    conv_rhs => rw [← List.set_getElem_self hlt]
    rw [List.map_set, List.map_set]
  rw [round, hturns]
  rfl

/-- The length of the turn at a position. -/
theorem turn_of_slot {i : Nat} (hslot : passive.slots[i]? = some slot) :
    passive.round.turns[i]? = some slot.coefficient := by
  show (passive.slots.map (·.coefficient))[i]? = _
  rw [List.getElem?_map, hslot, Option.map_some]

/-- The slot under the cursor. -/
theorem exists_slot_of_valid (h : passive.round.Valid) :
    ∃ slot, passive.slots[passive.current]? = some slot := by
  have hlt := h.current_lt
  rw [round, List.length_map] at hlt
  exact ⟨_, List.getElem?_eq_getElem hlt⟩

theorem round_advance (passive : PassiveSet) : passive.advance.round = passive.round.advance := by
  simp only [round, advance, Round.advance, List.length_map]

theorem round_clean (passive : PassiveSet) : passive.clean.1.round = passive.round := by
  simp only [round, clean, List.map_map]
  rfl

theorem round_offer (passive : PassiveSet) (clause : Clause) :
    (passive.offer clause).round = passive.round := by
  simp only [round, offer, List.map_map]
  rfl

namespace AgeFair

/-- Replacing the slot under the cursor by one with other entries, with the clauses that are then live. The
entries matter when it is the queue by age. -/
theorem setSlot (h : passive.AgeFair store turns position)
    (hslot : passive.slots[passive.current]? = some slot) {live : List ClauseId}
    (hlive : live.Sublist passive.live) {items : List QueueItem} {served taken : Nat}
    (hentries : slot.Faithful store passive.live → PassiveSlot.Faithful store live
      { slot with queue := { slot.queue with items }, served })
    (htaken : Round.Valid { passive.round with taken }) (counters : PassiveStats) :
    AgeFair store turns position
      { passive with
        live
        slots := passive.slots.set passive.current
          { slot with queue := { slot.queue with items }, served }
        taken, counters } := by
  have hround := round_setSlot hslot live items served taken counters
  refine ⟨h.numbered, fun id hid => h.known id (hlive.subset hid), h.nodup.sublist hlive, ?_, ?_, ?_⟩
  · rw [hround]
    exact h.turns_eq
  · rw [hround]
    exact htaken
  · obtain ⟨age, hage, hweight, haccept, hfaithful⟩ := h.slot
    by_cases hcurrent : passive.current = position
    · subst hcurrent
      rw [hslot, Option.some.injEq] at hage
      subst hage
      refine ⟨_, List.getElem?_set_self ?_, hweight, haccept, hentries hfaithful⟩
      exact (List.getElem?_eq_some_iff.1 hslot).1
    · refine ⟨age, ?_, hweight, haccept, hfaithful.mono hlive.subset⟩
      rw [List.getElem?_set_ne hcurrent]
      exact hage

theorem advance (h : passive.AgeFair store turns position) :
    passive.advance.AgeFair store turns position := by
  refine ⟨h.numbered, h.known, h.nodup, h.turns_eq, ?_, h.slot⟩
  rw [round_advance]
  exact h.valid.advance

/-- The turn of the queue under the cursor keeps the queue by age usable. -/
theorem takeFromCurrent (h : passive.AgeFair store turns position) :
    passive.takeFromCurrent.1.AgeFair store turns position := by
  obtain ⟨slot, hslot⟩ := exists_slot_of_valid h.valid
  obtain ⟨-, htake⟩ | ⟨-, hstale, counters, htake⟩ |
    ⟨hopen, dropped, item, rest, counters, hitems, hdropped, -, htake⟩ := takeFromCurrent_cases hslot
  · rw [htake]
    exact h
  · rw [htake]
    exact h.setSlot hslot (List.Sublist.refl _) (fun hfaithful => hfaithful.emptied hstale) h.valid
      counters
  · rw [htake]
    exact h.setSlot hslot List.erase_sublist
      (fun hfaithful => hfaithful.afterServing h.nodup hitems hdropped)
      (h.valid.serve (turn_of_slot hslot) hopen) counters

theorem nextWithin (h : passive.AgeFair store turns position) (visits : Nat) :
    (nextWithin visits passive).1.AgeFair store turns position := by
  induction visits generalizing passive with
  | zero => exact h
  | succ visits ih =>
    have htake := h.takeFromCurrent
    rw [PassiveSet.nextWithin]
    split
    · next later id heq => exact heq ▸ htake
    · next later heq =>
      rw [heq] at htake
      exact ih htake.advance

/-- Handing out a clause keeps the queue by age usable. -/
theorem next (h : passive.AgeFair store turns position) :
    passive.next.1.AgeFair store turns position := by
  rw [PassiveSet.next]
  split
  · exact h
  · exact h.nextWithin _

/-- A growing store keeps the queue by age usable. -/
theorem of_extends (h : passive.AgeFair store turns position) (hextends : store.Extends later)
    (hnumbered : later.Numbered) : passive.AgeFair later turns position := by
  obtain ⟨slot, hslot, hweight, haccept, hfaithful⟩ := h.slot
  exact ⟨hnumbered, fun id hid => hextends.exists_get? (h.known id hid), h.nodup, h.turns_eq, h.valid,
    slot, hslot, hweight, haccept, hfaithful.of_extends hextends h.known⟩

theorem remove (h : passive.AgeFair store turns position) (id : ClauseId) :
    (passive.remove id).1.AgeFair store turns position := by
  obtain ⟨slot, hslot, hweight, haccept, hfaithful⟩ := h.slot
  exact ⟨h.numbered, fun i hi => h.known i (List.mem_of_mem_erase hi), h.nodup.erase id, h.turns_eq,
    h.valid, slot, hslot, hweight, haccept, hfaithful.mono fun _ hi => List.mem_of_mem_erase hi⟩

theorem clean (h : passive.AgeFair store turns position) :
    passive.clean.1.AgeFair store turns position := by
  have hround := round_clean passive
  obtain ⟨slot, hslot, hweight, haccept, hfaithful⟩ := h.slot
  refine ⟨h.numbered, h.known, h.nodup, hround ▸ h.turns_eq, hround ▸ h.valid,
    { slot with queue := (slot.queue.clean passive.contains).1 }, ?_, hweight, haccept, ?_⟩
  · simp only [PassiveSet.clean, List.map_map, List.getElem?_map, hslot]
    rfl
  · refine hfaithful.withItems List.filter_sublist ?_ fun _ hid => hid
    intro item hitem hlive
    exact List.mem_filter.2 ⟨hitem, contains_iff.2 hlive⟩

theorem insert (h : passive.AgeFair store turns position) {id : ClauseId} {clause : Clause}
    (hclause : store.get? id = some clause) :
    AgeFair store turns position
      (offer { passive with live := insertNew passive.live id } clause) := by
  have hround := round_offer { passive with live := insertNew passive.live id } clause
  obtain ⟨slot, hslot, hweight, haccept, hfaithful⟩ := h.slot
  refine ⟨h.numbered, ?_, nodup_insertNew id h.nodup, hround ▸ h.turns_eq, hround ▸ h.valid,
    { slot with queue := slot.queue.add clause }, ?_, ?_, ?_, ?_⟩
  · intro i hi
    rcases mem_insertNew.1 hi with hi | rfl
    · exact h.known i hi
    · exact ⟨clause, hclause⟩
  · simp only [offer, List.getElem?_map, hslot, Option.map_some]
  · rw [← hweight, ClauseQueue.add]
    split <;> rfl
  · rw [← haccept, ClauseQueue.add]
    split <;> rfl
  · exact hfaithful.add hclause (h.numbered id clause hclause) fun i hi => mem_insertNew.1 hi

/-- Clauses are added one after the other, unless one of them is not in the store. -/
theorem addFrom_cases (h : passive.AgeFair store turns position) (fresh : Nat) (ids : List ClauseId) :
    (∃ after added, addFrom store fresh passive ids = (after, .ok added) ∧
      after.AgeFair store turns position ∧ after.round = passive.round ∧
      after.live = insertAll passive.live ids) ∨
    (∃ id ∈ ids, store.get? id = none) ∧
      ∃ after fault, addFrom store fresh passive ids = (after, .error fault) := by
  induction ids generalizing passive fresh with
  | nil => exact Or.inl ⟨passive, fresh, rfl, h, rfl, rfl⟩
  | cons id ids ih =>
    rw [addFrom, insertAll_cons]
    split
    · next hlive =>
      rw [insertNew_of_mem (contains_iff.1 hlive)]
      rcases ih h fresh with hadded | ⟨⟨i, hi, hnone⟩, hfault⟩
      · exact Or.inl hadded
      · exact Or.inr ⟨⟨i, List.mem_cons_of_mem id hi, hnone⟩, hfault⟩
    · dsimp only
      cases hget : store.get? id with
      | none =>
        rw [ClauseStore.get, hget]
        exact Or.inr ⟨⟨id, List.mem_cons_self, hget⟩, _, _, rfl⟩
      | some clause =>
        rw [ClauseStore.get_eq_ok_iff.2 hget]
        rcases ih (h.insert hget) (fresh + 1) with
          ⟨after, added, hadd, hafter, hround, hlive⟩ | ⟨⟨i, hi, hnone⟩, hfault⟩
        · exact Or.inl ⟨after, added, hadd, hafter, hround.trans (round_offer _ clause), hlive⟩
        · exact Or.inr ⟨⟨i, List.mem_cons_of_mem id hi, hnone⟩, hfault⟩

/-- Adding clauses keeps the queue by age usable. -/
theorem add_cases (h : passive.AgeFair store turns position) (ids : List ClauseId) :
    (∃ after, ops.add store passive ids = .ok after ∧ after.AgeFair store turns position ∧
      after.round = passive.round ∧ after.live = insertAll passive.live ids) ∨
    (∃ id ∈ ids, store.get? id = none) ∧ ∃ fault, ops.add store passive ids = .error fault := by
  simp only [ops, add]
  rcases h.addFrom_cases 0 ids with ⟨after, added, hadd, hafter, hround, hlive⟩ |
    ⟨hunknown, after, fault, hadd⟩
  · rw [hadd]
    refine Or.inl ⟨_, rfl, ?_, hround, hlive⟩
    exact ⟨hafter.numbered, hafter.known, hafter.nodup, hafter.turns_eq, hafter.valid, hafter.slot⟩
  · rw [hadd]
    exact Or.inr ⟨hunknown, fault, rfl⟩

/-- Every call keeps the queue by age usable. -/
theorem perform {state state' : ClauseStore × PassiveSet} {call : PassiveCall}
    {given : List (Option ClauseId)} (hcall : ops.perform state call = .ok (state', given))
    (h : state.2.AgeFair state.1 turns position) : state'.2.AgeFair state'.1 turns position := by
  cases call with
  | store storeCall =>
    cases hcall
    exact h.of_extends (state.1.extends_perform storeCall) (h.numbered.perform storeCall)
  | add ids =>
    rw [PassiveOps.perform] at hcall
    rcases h.add_cases ids with ⟨after, hadd, hafter, -⟩ | ⟨-, fault, hadd⟩
    · rw [hadd] at hcall
      cases hcall
      exact hafter
    · rw [hadd] at hcall
      cases hcall
  | remove id =>
    cases hcall
    exact h.remove id
  | next =>
    cases hcall
    exact h.next
  | clean =>
    cases hcall
    exact h.clean

/-! ## One request -/

/-- The queue by age has an entry of every live clause. -/
theorem exists_entry (hknown : ∃ clause, store.get? x = some clause)
    (hfaithful : slot.Faithful store passive.live) (hweight : slot.queue.weight = .age)
    (haccept : slot.queue.accept = .all) (hx : x ∈ passive.live) :
    ∃ item ∈ slot.queue.items, item.2 = x := by
  obtain ⟨clause, hclause⟩ := hknown
  refine ⟨(WeightFunction.weigh clause .age, x), hfaithful.complete x hx _ ?_, rfl⟩
  rw [hweight, haccept]
  simp [ClauseStore.entryFor?, hclause, Acceptance.accepts]

/-- The first live entry of the queue by age is that of the clause which waits, or of an older one. -/
theorem first_older (hknown : ∃ clause, store.get? x = some clause)
    (hfaithful : slot.Faithful store passive.live) (hweight : slot.queue.weight = .age)
    (haccept : slot.queue.accept = .all) (hx : x ∈ passive.live)
    {dropped rest : List QueueItem} {first : QueueItem}
    (hitems : slot.queue.items = dropped ++ first :: rest)
    (hdropped : ∀ d ∈ dropped, passive.contains d.2 = false) :
    first.2 = x ∨ store.isOlder first.2 x = true := by
  obtain ⟨item, hitem, rfl⟩ := exists_entry hknown hfaithful hweight haccept hx
  have hfirst : first ∈ slot.queue.items := by simp [hitems]
  have hentry := hfaithful.sound item hitem
  have hentry' := hfaithful.sound first hfirst
  rw [hweight, haccept] at hentry hentry'
  have hsorted := hfaithful.sorted
  rw [hitems, List.pairwise_append, List.pairwise_cons] at hsorted
  rw [hitems, List.mem_append, List.mem_cons] at hitem
  rcases hitem with hstale | rfl | hlater
  · rw [← contains_iff, hdropped item hstale] at hx
    cases hx
  · exact Or.inl rfl
  · exact Or.inr (ClauseStore.isOlder_iff.2
      ⟨first, item, hentry', hentry, hsorted.2.1.1 item hlater⟩)

/-- What a request hands out while `x` waits: the clause itself, an older one, or a clause after which the
turn of the queue by age is nearer. -/
structure Serves (store : ClauseStore) (position : Nat) (x : ClauseId) (passive after : PassiveSet)
    (id : ClauseId) : Prop where
  /-- A live clause is handed out. -/
  mem : id ∈ passive.live
  /-- It is the only one that goes. -/
  live : after.live = passive.live.erase id
  /-- The waiting clause has come nearer. -/
  nearer : id = x ∨ store.isOlder id x = true ∨
    after.round.delay position < passive.round.delay position

/-- Turns that pass before do not put off the clause. -/
theorem Serves.of_passed {passed after : PassiveSet} {id : ClauseId}
    (h : Serves store position x passed after id) (hlive : passed.live = passive.live)
    (hdelay : passed.round.delay position ≤ passive.round.delay position) :
    Serves store position x passive after id := by
  refine ⟨hlive ▸ h.mem, hlive ▸ h.live, ?_⟩
  rcases h.nearer with heq | holder | hnearer
  · exact Or.inl heq
  · exact Or.inr (Or.inl holder)
  · exact Or.inr (Or.inr (hnearer.trans_le hdelay))

/-- A request is served when the turn of the queue by age is among the turns that it visits. -/
theorem nextWithin_serves (h : passive.AgeFair store turns position) (hx : x ∈ passive.live)
    {visits : Nat} (hvisits : passive.round.moves position < visits) :
    ∃ after id, PassiveSet.nextWithin visits passive = (after, some id) ∧
      Serves store position x passive after id := by
  induction visits generalizing passive with
  | zero => exact absurd hvisits (Nat.not_lt_zero _)
  | succ visits ih =>
    obtain ⟨slot, hslot⟩ := exists_slot_of_valid h.valid
    obtain ⟨age, hage, hweight, haccept, hfaithful⟩ := h.slot
    have hknown := h.known x hx
    have hturn := turn_of_slot hage
    have hsame : passive.current = position → slot = age := by
      intro heq
      rw [heq, hage] at hslot
      exact (Option.some.inj hslot).symm
    -- a turn that passes is not an open turn of the queue by age, and the next one is nearer to it
    have hpass : ∀ passed : PassiveSet, passed.AgeFair store turns position →
        passed.live = passive.live → passed.round = passive.round →
        ¬ (passive.current = position ∧ passive.taken < age.coefficient) →
        ∃ after id, PassiveSet.nextWithin visits passed.advance = (after, some id) ∧
          Serves store position x passive after id := by
      intro passed hpassed hlive hround hclosed
      obtain ⟨hdelay, hmoves⟩ := h.valid.advance_nearer hturn hfaithful.positive hclosed
      have hadvance : passed.advance.round = passive.round.advance := by
        rw [round_advance, hround]
      have hx' : x ∈ passed.advance.live := hlive ▸ hx
      have hvisits' : passed.advance.round.moves position < visits := by
        rw [hadvance]
        omega
      obtain ⟨after, id, hnext, hserves⟩ := ih hpassed.advance hx' hvisits'
      exact ⟨after, id, hnext, hserves.of_passed hlive (hadvance ▸ hdelay)⟩
    have hfair := h.takeFromCurrent
    rw [PassiveSet.nextWithin]
    obtain ⟨hover, htake⟩ | ⟨-, hstale, counters, htake⟩ |
      ⟨hopen, dropped, first, rest, counters, hitems, hdropped, hfirst, htake⟩ :=
      takeFromCurrent_cases hslot
    · rw [htake]
      refine hpass passive h rfl rfl ?_
      rintro ⟨heq, hopen⟩
      rw [hsame heq] at hover
      omega
    · rw [htake] at hfair ⊢
      refine hpass _ hfair rfl (round_setSlot hslot _ _ _ _ _) ?_
      rintro ⟨heq, -⟩
      -- the queue by age has a live entry
      rw [hsame heq] at hstale
      obtain ⟨item, hitem, rfl⟩ := exists_entry hknown hfaithful hweight haccept hx
      rw [← contains_iff, hstale item hitem] at hx
      cases hx
    · rw [htake]
      refine ⟨_, first.2, rfl, contains_iff.1 hfirst, rfl, ?_⟩
      by_cases heq : passive.current = position
      · rw [hsame heq] at hitems
        rcases first_older hknown hfaithful hweight haccept hx hitems hdropped with heq | holder
        · exact Or.inl heq
        · exact Or.inr (Or.inl holder)
      · refine Or.inr (Or.inr ?_)
        rw [round_setSlot hslot]
        exact h.valid.delay_serve_lt hturn hfaithful.positive (turn_of_slot hslot) hopen heq

/-- While a clause waits, no request comes back with nothing. -/
theorem next_serves (h : passive.AgeFair store turns position) (hx : x ∈ passive.live) :
    ∃ after id, PassiveSet.next passive = (after, some id) ∧ after.AgeFair store turns position ∧
      Serves store position x passive after id := by
  obtain ⟨age, hage, -, -, hfaithful⟩ := h.slot
  have hmoves := h.valid.moves_le (turn_of_slot hage) hfaithful.positive
  have hlength : passive.round.turns.length = passive.slots.length := List.length_map ..
  have hvisits : passive.round.moves position < passive.slots.length + 1 := by omega
  have hne : ¬ passive.slots.isEmpty = true := by
    rw [List.isEmpty_iff]
    intro hnil
    rw [hnil] at hage
    cases hage
  obtain ⟨after, id, hwithin, hserves⟩ := h.nextWithin_serves hx hvisits
  have hnext : PassiveSet.next passive = (after, some id) := by
    rw [PassiveSet.next, if_neg hne]
    exact hwithin
  have hafter := h.next
  rw [hnext] at hafter
  exact ⟨after, id, hnext, hafter, hserves⟩

end AgeFair

end PassiveSet

end GivenClause
