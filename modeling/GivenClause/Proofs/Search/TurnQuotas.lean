import GivenClause.Proofs.Search.FailedAdditions
import GivenClause.Proofs.Search.Fairness

/-! # How many clauses each queue hands out

The queues of a passive set take turns, and as long as the queue whose turn it is always accepts some live
clause, the turns follow a fixed timetable: requests are dealt out in rounds, each queue serving as many in a
row as its coefficient says. Neither stale entries nor what other queues hold make a difference, nor does it
matter that the cursor leaves a queue only with the request after its last one.

* `Round.IsTurn` is the timetable and `Round.quota` counts the requests of one turn in it;
* `PassiveSet.Stocked` says that queues hold the live clauses that they accept, and `PassiveSet.InStep` that
  the set is where the timetable says;
* `PassiveSet.ServedBy` is a request that a given queue serves, and `PassiveSet.AlwaysReady` a run in which
  the queue whose turn it is can serve;
* `PassiveSet.InStep.next_serves` is one request, `PassiveSet.InStep.performAll` a run, and
  `PassiveSet.served_exactly` states the quotas. -/

namespace GivenClause

open InsertionOrder

/-! ## The timetable -/

namespace Round

/-- In rounds of turns of given lengths, the request with number `n` (from zero) falls into the turn at
`position`. -/
def IsTurn (turns : List Nat) (position n : Nat) : Prop :=
  (turns.take position).sum ≤ n % turns.sum ∧ n % turns.sum < (turns.take (position + 1)).sum

instance (turns : List Nat) (position n : Nat) : Decidable (IsTurn turns position n) :=
  inferInstanceAs (Decidable (_ ∧ _))

/-- How many of the first `n` requests fall into the turn at `position`, which has length `turn`. -/
def quota (turns : List Nat) (position turn n : Nat) : Nat :=
  turn * (n / turns.sum) + min turn (n % turns.sum - (turns.take position).sum)

variable {turns : List Nat} {position other turn n : Nat}

/-- Every request falls into one turn. -/
theorem IsTurn.unique (h : IsTurn turns position n) (h' : IsTurn turns other n) : position = other := by
  have hmono : ∀ {i j : Nat}, i < j → (turns.take (i + 1)).sum ≤ (turns.take j).sum :=
    fun hij => @before_mono ⟨turns, 0, 0⟩ _ _ hij
  rcases Nat.lt_trichotomy position other with hlt | heq | hgt
  · exact absurd (Nat.lt_of_lt_of_le h.2 (hmono hlt)) (Nat.not_lt.2 h'.1)
  · exact heq
  · exact absurd (Nat.lt_of_lt_of_le h'.2 (hmono hgt)) (Nat.not_lt.2 h.1)

theorem quota_zero (turns : List Nat) (position turn : Nat) : quota turns position turn 0 = 0 := by
  simp [quota]

/-- A request counts for the turn into which it falls, and for no other. -/
theorem quota_succ (hturn : turns[position]? = some turn) (hpositive : 0 < turn) (n : Nat) :
    quota turns position turn (n + 1) =
      quota turns position turn n + if IsTurn turns position n then 1 else 0 := by
  have hsucc : (turns.take (position + 1)).sum = (turns.take position).sum + turn :=
    @before_succ ⟨turns, 0, 0⟩ _ _ hturn
  have hsum : (turns.take (position + 1)).sum ≤ turns.sum :=
    before_le_sum ⟨turns, 0, 0⟩ (position + 1)
  have hpos : 0 < turns.sum := by omega
  have hlt := Nat.mod_lt n hpos
  have hdiv := Nat.mod_add_div n turns.sum
  have hiff : IsTurn turns position n ↔ (turns.take position).sum ≤ n % turns.sum ∧
      n % turns.sum < (turns.take position).sum + turn := by
    rw [IsTurn, hsucc]
  simp only [quota, hiff]
  by_cases hlast : n % turns.sum + 1 = turns.sum
  · -- the last request of a round
    obtain ⟨hquotient, hrest⟩ : (n + 1) / turns.sum = n / turns.sum + 1 ∧ (n + 1) % turns.sum = 0 :=
      (Nat.div_mod_unique hpos).2 ⟨by rw [Nat.mul_add_one]; omega, hpos⟩
    rw [hquotient, hrest, Nat.mul_add_one]
    split <;> omega
  · obtain ⟨hquotient, hrest⟩ : (n + 1) / turns.sum = n / turns.sum ∧
        (n + 1) % turns.sum = n % turns.sum + 1 :=
      (Nat.div_mod_unique hpos).2 ⟨by omega, by omega⟩
    rw [hquotient, hrest]
    split <;> omega

/-- When a turn is over, moving the cursor does not change the place in the round. -/
theorem Valid.now_advance_mod {round : Round} (h : round.Valid)
    (hturn : round.turns[round.current]? = some turn) (hover : turn ≤ round.taken) :
    round.advance.now % round.turns.sum = round.now % round.turns.sum := by
  have hnow : round.now = round.before (round.current + 1) := by
    have hsucc := before_succ hturn
    have hle := h.now_le
    rw [now] at hle ⊢
    omega
  rw [h.now_advance, hnow]
  split
  · next hlast => rw [hlast, before, List.take_length, Nat.mod_self, Nat.zero_mod]
  · rfl

end Round

/-! ## Slots that hold what they accept -/

/-- A condition that looks only at what is fixed when a clause is made, and not at its descendants. -/
def Acceptance.Steady (accept : Acceptance) : Prop :=
  ∀ (clause : Clause) (descendants : List ClauseId),
    accept.accepts { clause with descendants } = accept.accepts clause

/-- A queue that looks only at what is fixed in a clause holds it while the store grows. -/
theorem PassiveSlot.Holds.of_extends {store later : ClauseStore} {slot : PassiveSlot} {id : ClauseId}
    (h : slot.Holds store id) (hsteady : slot.queue.accept.Steady) (hextends : store.Extends later)
    (hknown : ∃ clause, store.get? id = some clause) : slot.Holds later id := by
  intro clause' hclause' haccepts
  obtain ⟨clause, hclause⟩ := hknown
  obtain ⟨clause'', hlater, hcontinues⟩ := hextends.continues id clause hclause
  cases hlater.symm.trans hclause'
  refine h clause hclause ?_
  rw [hcontinues.same] at haccepts
  exact (hsteady clause _).symm.trans haccepts

/-- What counts for the turns of a slot: the name of its queue, what it accepts, how long its turns are and
how many clauses it has handed out. -/
def PassiveSlot.standing (slot : PassiveSlot) : String × Acceptance × Nat × Nat :=
  (slot.queue.name, slot.queue.accept, slot.coefficient, slot.served)

theorem PassiveSlot.standing_offerAll (slot : PassiveSlot) (clauses : List Clause) :
    (slot.offerAll clauses).standing = slot.standing := by
  rw [offerAll_eq]
  rfl

namespace PassiveSet

/-- Live clauses are in the store and listed once, and every queue holds those that it accepts. Nothing is
said about other entries, nor about the order of entries. -/
structure Stocked (store : ClauseStore) (passive : PassiveSet) : Prop where
  /-- Clauses carry their numbers. -/
  numbered : store.Numbered
  /-- Live clauses are in the store. -/
  known : ∀ id ∈ passive.live, ∃ clause, store.get? id = some clause
  /-- Live clauses are listed once. -/
  nodup : passive.live.Nodup
  /-- Live clauses are held. -/
  held : ∀ slot ∈ passive.slots, ∀ id ∈ passive.live, slot.Holds store id

variable {store later : ClauseStore} {passive after : PassiveSet} {slot : PassiveSlot} {id : ClauseId}
  {queues : List (ClauseQueue × Nat)} {n : Nat}

namespace Stocked

theorem of_extends (h : passive.Stocked store) (hextends : store.Extends later)
    (hnumbered : later.Numbered) (hsteady : ∀ slot ∈ passive.slots, slot.queue.accept.Steady) :
    passive.Stocked later where
  numbered := hnumbered
  known := fun id hid => hextends.exists_get? (h.known id hid)
  nodup := h.nodup
  held := fun slot hslot id hid =>
    (h.held slot hslot id hid).of_extends (hsteady slot hslot) hextends (h.known id hid)

theorem remove (h : passive.Stocked store) (id : ClauseId) : (passive.remove id).1.Stocked store where
  numbered := h.numbered
  known := fun i hi => h.known i (List.mem_of_mem_erase hi)
  nodup := h.nodup.erase id
  held := fun slot hslot i hi => h.held slot hslot i (List.mem_of_mem_erase hi)

/-- Cleaning drops entries of clauses that are not live. -/
theorem clean (h : passive.Stocked store) : passive.clean.1.Stocked store where
  numbered := h.numbered
  known := h.known
  nodup := h.nodup
  held := by
    intro slot' hslot' id hid clause hclause haccepts
    simp only [PassiveSet.clean, List.map_map, List.mem_map] at hslot'
    obtain ⟨slot, hslot, rfl⟩ := hslot'
    obtain ⟨item, hitem, rfl⟩ := h.held slot hslot id hid clause hclause haccepts
    exact ⟨item, List.mem_filter.2 ⟨hitem, contains_iff.2 hid⟩, rfl⟩

theorem takeIn (h : passive.Stocked store) {ids newcomers : List ClauseId}
    (hnew : Newcomers store passive.live ids newcomers) :
    (passive.takeIn store newcomers).Stocked store where
  numbered := h.numbered
  known := by
    intro id hid
    rcases List.mem_append.1 hid with hold | hadded
    · exact h.known id hold
    · exact hnew.known id hadded
  nodup := by
    show (passive.live ++ newcomers).Nodup
    rw [← hnew.joined]
    exact nodup_insertAll ids h.nodup
  held := holds_takeIn h.numbered hnew.known h.held

/-- Handing out the first live entry of the queue under the cursor. -/
theorem afterServing (h : passive.Stocked store) (hslot : passive.slots[passive.current]? = some slot)
    {dropped rest : List QueueItem} {item : QueueItem}
    (hitems : slot.queue.items = dropped ++ item :: rest)
    (hdropped : ∀ d ∈ dropped, passive.contains d.2 = false) (served taken : Nat)
    (counters : PassiveStats) :
    Stocked store
      { passive with
        live := passive.live.erase item.2
        slots := passive.slots.set passive.current
          { slot with queue := { slot.queue with items := rest }, served }
        taken, counters } where
  numbered := h.numbered
  known := fun i hi => h.known i (List.mem_of_mem_erase hi)
  nodup := h.nodup.erase _
  held := by
    intro other hother i hi
    obtain ⟨hne, hlive⟩ := h.nodup.mem_erase_iff.1 hi
    rcases List.mem_or_eq_of_mem_set hother with hother | rfl
    · exact h.held other hother i hlive
    · -- the entry of a clause that is still live was neither dropped nor handed out
      intro clause hclause haccepts
      obtain ⟨entry, hentry, rfl⟩ := h.held slot (List.mem_of_getElem? hslot) i hlive clause hclause haccepts
      rw [hitems, List.mem_append, List.mem_cons] at hentry
      rcases hentry with hstale | rfl | hrest
      · rw [← contains_iff, hdropped entry hstale] at hlive
        cases hlive
      · exact absurd rfl hne
      · exact ⟨entry, hrest, rfl⟩

end Stocked

/-! ## Being in step with the timetable -/

/-- After `n` requests the set is where the timetable of its queues says, and each queue has handed out its
quota. -/
structure InStep (queues : List (ClauseQueue × Nat)) (n : Nat) (passive : PassiveSet) : Prop where
  /-- Turns are not empty. -/
  positive : ∀ q ∈ queues, 0 < q.2
  /-- The queues and what they have handed out. -/
  slots : ∀ i : Nat, passive.slots[i]?.map PassiveSlot.standing = queues[i]?.map fun q =>
    (q.1.name, q.1.accept, q.2, Round.quota (queues.map (·.2)) i q.2 n)
  /-- The cursor points to a turn, which is not exceeded. -/
  valid : passive.round.Valid
  /-- The place in the round, where the end of a round is as good as the beginning of the next. -/
  now : passive.round.now % (queues.map (·.2)).sum = n % (queues.map (·.2)).sum

namespace InStep

theorem turns_eq (h : passive.InStep queues n) : passive.round.turns = queues.map (·.2) := by
  refine List.ext_getElem? fun i => ?_
  have hslot := congrArg (Option.map fun s => s.2.2.1) (h.slots i)
  simpa [round, Function.comp_def, PassiveSlot.standing] using hslot

/-- Only the standing of the slots, the cursor and the turn matter. -/
theorem of_standing (h : passive.InStep queues n)
    (hslots : after.slots.map PassiveSlot.standing = passive.slots.map PassiveSlot.standing)
    (hcurrent : after.current = passive.current) (htaken : after.taken = passive.taken) :
    after.InStep queues n := by
  have hturns : after.slots.map (·.coefficient) = passive.slots.map (·.coefficient) := by
    simpa [Function.comp_def, PassiveSlot.standing] using congrArg (List.map fun s => s.2.2.1) hslots
  have hround : after.round = passive.round := by
    rw [round, round, hturns, hcurrent, htaken]
  refine ⟨h.positive, fun i => ?_, hround ▸ h.valid, hround ▸ h.now⟩
  rw [← h.slots i, ← List.getElem?_map, hslots, List.getElem?_map]

/-- A slot has the length of turns and the condition of its queue. -/
theorem exists_queue (h : passive.InStep queues n) {i : Nat} (hslot : passive.slots[i]? = some slot) :
    ∃ q, queues[i]? = some q ∧ slot.coefficient = q.2 ∧ slot.queue.accept = q.1.accept := by
  have hstanding := h.slots i
  rw [hslot, Option.map_some] at hstanding
  obtain ⟨q, hq, heq⟩ := Option.map_eq_some_iff.1 hstanding.symm
  exact ⟨q, hq, (congrArg (·.2.2.1) heq).symm, (congrArg (·.2.1) heq).symm⟩

/-- While a turn is not over, it is the one of the timetable. -/
theorem isTurn_current (h : passive.InStep queues n) (hslot : passive.slots[passive.current]? = some slot)
    (hopen : passive.taken < slot.coefficient) :
    Round.IsTurn (queues.map (·.2)) passive.current n := by
  have hsucc := Round.before_succ (turn_of_slot hslot)
  have hsum := passive.round.before_le_sum (passive.current + 1)
  have hnow : passive.round.now = passive.round.before passive.current + passive.taken := rfl
  rw [Round.IsTurn, ← h.now, ← h.turns_eq, Nat.mod_eq_of_lt (by omega)]
  show passive.round.before passive.current ≤ _ ∧ _ < passive.round.before (passive.current + 1)
  omega

/-- A turn that is over leads on to the next one. -/
theorem advance (h : passive.InStep queues n) (hslot : passive.slots[passive.current]? = some slot)
    (hover : slot.coefficient ≤ passive.taken) : passive.advance.InStep queues n := by
  refine ⟨h.positive, h.slots, ?_, ?_⟩
  · rw [round_advance]
    exact h.valid.advance
  · rw [round_advance, ← h.now, ← h.turns_eq]
    exact h.valid.now_advance_mod (turn_of_slot hslot) hover

/-- A clause handed out in its turn counts for the quota of its queue. -/
theorem afterServing (h : passive.InStep queues n) (hslot : passive.slots[passive.current]? = some slot)
    (hopen : passive.taken < slot.coefficient) (live : List ClauseId) (items : List QueueItem)
    (counters : PassiveStats) :
    InStep queues (n + 1)
      { passive with
        live
        slots := passive.slots.set passive.current
          { slot with queue := { slot.queue with items }, served := slot.served + 1 }
        taken := passive.taken + 1, counters } := by
  have hturn := h.isTurn_current hslot hopen
  have hround := round_setSlot hslot live items (slot.served + 1) (passive.taken + 1) counters
  refine ⟨h.positive, fun i => ?_, ?_, ?_⟩
  · cases hq : queues[i]? with
    | none =>
      have hnone := h.slots i
      rw [hq, Option.map_none, Option.map_eq_none_iff] at hnone
      simpa using hnone
    | some q =>
      have hpositive := h.positive q (List.mem_of_getElem? hq)
      have hlength : (queues.map (·.2))[i]? = some q.2 := by
        rw [List.getElem?_map, hq, Option.map_some]
      have hstanding := h.slots i
      rw [hq, Option.map_some] at hstanding
      rw [Option.map_some, Round.quota_succ hlength hpositive]
      by_cases hcurrent : passive.current = i
      · subst hcurrent
        rw [if_pos hturn, List.getElem?_set_self (List.getElem?_eq_some_iff.1 hslot).1]
        simp only [hslot, Option.map_some, Option.some.injEq, PassiveSlot.standing, Prod.mk.injEq]
          at hstanding ⊢
        obtain ⟨hname, haccept, hcoefficient, hserved⟩ := hstanding
        exact ⟨hname, haccept, hcoefficient, congrArg (· + 1) hserved⟩
      · rw [if_neg fun hother => hcurrent (hturn.unique hother), List.getElem?_set_ne hcurrent]
        exact hstanding
  · rw [hround]
    exact h.valid.serve (turn_of_slot hslot) hopen
  · rw [hround]
    have hnow : Round.now { passive.round with taken := passive.taken + 1 } = passive.round.now + 1 :=
      (Nat.add_assoc ..).symm
    rw [hnow, Nat.add_mod, h.now, ← Nat.add_mod]

end InStep

/-! ## One request -/

/-- The queue at `position` serves a request: its first live entry is handed out, stale entries in front of it
are dropped, and no other queue changes. -/
structure ServedBy (position : Nat) (passive after : PassiveSet) (id : ClauseId) : Prop where
  /-- A live clause is handed out. -/
  mem : id ∈ passive.live
  /-- It is the only one that goes. -/
  live : after.live = passive.live.erase id
  /-- The entry comes from the queue, which counts it. -/
  entry : ∃ slot dropped item rest, passive.slots[position]? = some slot ∧
    slot.queue.items = dropped ++ item :: rest ∧ (∀ d ∈ dropped, passive.contains d.2 = false) ∧
    item.2 = id ∧ after.slots = passive.slots.set position
      { slot with queue := { slot.queue with items := rest }, served := slot.served + 1 }

/-- The queue whose turn it is accepts some live clause. -/
def Ready (queues : List (ClauseQueue × Nat)) (n : Nat) (state : ClauseStore × PassiveSet) : Prop :=
  ∃ position < queues.length, Round.IsTurn (queues.map (·.2)) position n ∧
    ∃ q ∈ queues[position]?, ∃ id ∈ state.2.live, ∃ clause ∈ state.1.get? id, q.1.accepts clause = true

instance (queues : List (ClauseQueue × Nat)) (n : Nat) (state : ClauseStore × PassiveSet) :
    Decidable (Ready queues n state) :=
  inferInstanceAs (Decidable (∃ position < _, _))

namespace InStep

/-- The queue under the cursor serves a request in its turn if it accepts a live clause. -/
theorem take_serves (h : passive.InStep queues n) (hstocked : passive.Stocked store)
    (hslot : passive.slots[passive.current]? = some slot) (hopen : passive.taken < slot.coefficient)
    {clause : Clause} (hid : id ∈ passive.live) (hclause : store.get? id = some clause)
    (haccepts : slot.queue.accepts clause = true) :
    ∃ after given, passive.takeFromCurrent = (after, some given) ∧
      ServedBy passive.current passive after given ∧ after.InStep queues (n + 1) ∧
      after.Stocked store := by
  obtain ⟨hover, -⟩ | ⟨-, hstale, -⟩ |
    ⟨-, dropped, item, rest, counters, hitems, hdropped, hlive, htake⟩ := takeFromCurrent_cases hslot
  · exact absurd hopen (Nat.not_lt.2 hover)
  · -- the accepted clause has an entry, which is not stale
    obtain ⟨entry, hentry, rfl⟩ :=
      hstocked.held slot (List.mem_of_getElem? hslot) id hid clause hclause haccepts
    rw [← contains_iff, hstale entry hentry] at hid
    cases hid
  · exact ⟨_, item.2, htake,
      ⟨contains_iff.1 hlive, rfl, slot, dropped, item, rest, hslot, hitems, hdropped, rfl, rfl⟩,
      h.afterServing hslot hopen _ rest counters,
      hstocked.afterServing hslot hitems hdropped _ _ counters⟩

/-- A request comes to a turn that is not over, either at once or after moving the cursor. -/
theorem exists_open (h : passive.InStep queues n) :
    ∃ current taken slot, InStep queues n { passive with current, taken } ∧
      passive.slots[current]? = some slot ∧ taken < slot.coefficient ∧
      ∀ after id, takeFromCurrent { passive with current, taken } = (after, some id) →
        passive.next = (after, some id) := by
  obtain ⟨slot, hslot⟩ := exists_slot_of_valid h.valid
  obtain ⟨visits, hvisits⟩ : ∃ visits, passive.slots.length = visits + 1 :=
    Nat.exists_eq_succ_of_ne_zero (Nat.ne_zero_of_lt (List.getElem?_eq_some_iff.1 hslot).1)
  have hnext : passive.next = nextWithin (visits + 2) passive := by
    rw [next, if_neg, hvisits]
    rw [List.isEmpty_iff_length_eq_zero, hvisits]
    exact Nat.succ_ne_zero visits
  by_cases hopen : passive.taken < slot.coefficient
  · refine ⟨passive.current, passive.taken, slot, h, hslot, hopen, fun after id htake => ?_⟩
    rw [hnext, nextWithin, htake]
  · have hmoved := h.advance hslot (Nat.not_lt.1 hopen)
    obtain ⟨later, hlater⟩ := exists_slot_of_valid hmoved.valid
    obtain ⟨q, hq, hcoefficient, -⟩ := hmoved.exists_queue hlater
    have hpositive : 0 < later.coefficient := hcoefficient ▸ h.positive q (List.mem_of_getElem? hq)
    refine ⟨_, 0, later, hmoved, hlater, hpositive, fun after id htake => ?_⟩
    have hover : passive.takeFromCurrent = (passive, none) := by
      rw [takeFromCurrent, hslot]
      exact if_neg hopen
    rw [hnext, nextWithin, hover]
    show nextWithin (visits + 1) passive.advance = _
    rw [nextWithin, PassiveSet.advance, htake]

/-- A request is served by the queue whose turn it is. -/
theorem next_serves (h : passive.InStep queues n) (hstocked : passive.Stocked store)
    (hready : Ready queues n (store, passive)) :
    ∃ after given, passive.next = (after, some given) ∧
      (∀ position, Round.IsTurn (queues.map (·.2)) position n →
        ServedBy position passive after given) ∧
      after.InStep queues (n + 1) ∧ after.Stocked store := by
  obtain ⟨position, -, hturn, q, hq, id, hid, clause, hclause, haccepts⟩ := hready
  obtain ⟨current, taken, slot, hpassed, hslot, hopen, hnext⟩ := h.exists_open
  have hturn' : Round.IsTurn (queues.map (·.2)) current n := hpassed.isTurn_current hslot hopen
  obtain rfl : current = position := hturn'.unique hturn
  have haccepts' : slot.queue.accepts clause = true := by
    obtain ⟨q', hq', -, haccept⟩ := hpassed.exists_queue hslot
    cases hq'.symm.trans hq
    rw [ClauseQueue.accepts, haccept]
    exact haccepts
  obtain ⟨after, given, htake, hserved, hafter⟩ := hpassed.take_serves
    ⟨hstocked.numbered, hstocked.known, hstocked.nodup, hstocked.held⟩ hslot hopen hid hclause haccepts'
  refine ⟨after, given, hnext after given htake, fun other hother => ?_, hafter⟩
  obtain rfl : other = current := hother.unique hturn
  exact ⟨hserved.mem, hserved.live, hserved.entry⟩

end InStep

end PassiveSet

/-! ## Runs -/

/-- Whether a call asks for a clause. -/
def PassiveCall.isNext : PassiveCall → Bool
  | .next => true
  | _ => false

namespace PassiveOps

variable {σ : Type} {ops : PassiveOps σ} {state later : ClauseStore × σ} {given : List (Option ClauseId)}

/-- The first calls of a run that goes through go through. -/
theorem performAll_of_append {calls calls' : List PassiveCall}
    (h : ops.performAll state (calls ++ calls') = .ok (later, given)) :
    ∃ mid handed, ops.performAll state calls = .ok (mid, handed) := by
  induction calls generalizing state given with
  | nil => exact ⟨state, [], rfl⟩
  | cons call calls ih =>
    obtain ⟨next, now, rest, hnow, hrest, -⟩ := performAll_cons h
    obtain ⟨mid, handed, hmid⟩ := ih hrest
    exact ⟨mid, now ++ handed, performAll_cons_of_eq hnow hmid⟩

end PassiveOps

namespace PassiveSet

variable {queues : List (ClauseQueue × Nat)} {n : Nat} {state later : ClauseStore × PassiveSet}
  {given : List (Option ClauseId)} {calls : List PassiveCall}

/-- Whenever a clause is asked for in a run, the queue whose turn it is accepts some live clause. The run
starts after `n` requests. -/
def AlwaysReady (queues : List (ClauseQueue × Nat)) (n : Nat) (state : ClauseStore × PassiveSet)
    (calls : List PassiveCall) : Prop :=
  ∀ before after mid handed, calls = before ++ .next :: after →
    ops.performAll state before = .ok (mid, handed) → Ready queues (n + before.countP (·.isNext)) mid

/-- An addition that goes through takes in the clauses that are not live and counts them. -/
theorem exists_newcomers_of_add {store : ClauseStore} {passive after : PassiveSet} {ids : List ClauseId}
    (h : ops.add store passive ids = .ok after) :
    ∃ newcomers, Newcomers store passive.live ids newcomers ∧
      ∃ counters, after = { passive.takeIn store newcomers with counters } := by
  simp only [ops, add] at h
  rcases addFrom_eq store 0 passive ids with ⟨newcomers, hnew, hadd⟩ | ⟨_, _, _, _, _, _, _, _, hadd⟩
  · rw [hadd] at h
    cases h
    exact ⟨newcomers, hnew, _, rfl⟩
  · rw [hadd] at h
    cases h

/-- The requests of a run, one by one. -/
theorem alwaysReady_iff : AlwaysReady queues n state calls ↔
    ∀ k < calls.length, calls[k]?.any (·.isNext) = true →
      ∀ result ∈ (ops.performAll state (calls.take k)).toOption,
        Ready queues (n + (calls.take k).countP (·.isNext)) result.1 := by
  constructor
  · rintro h k hk hnext ⟨mid, handed⟩ hresult
    have hcalls : calls = calls.take k ++ calls[k] :: calls.drop (k + 1) := by simp
    rw [List.getElem?_eq_getElem hk, Option.any_some] at hnext
    cases hcall : calls[k] with
    | next =>
      rw [hcall] at hcalls
      refine h _ _ mid handed hcalls ?_
      cases hrun : ops.performAll state (calls.take k) with
      | error fault =>
        rw [hrun] at hresult
        cases hresult
      | ok result =>
        rw [hrun] at hresult
        cases hresult
        rfl
    | _ =>
      rw [hcall] at hnext
      cases hnext
  · rintro h before after mid handed rfl hmid
    have hready := h before.length (by simp) (by simp [PassiveCall.isNext]) (mid, handed)
    rw [List.take_left, hmid] at hready
    exact hready rfl

instance : Decidable (AlwaysReady queues n state calls) :=
  decidable_of_iff _ alwaysReady_iff.symm

namespace AlwaysReady

theorem of_append {calls' : List PassiveCall} (h : AlwaysReady queues n state (calls ++ calls')) :
    AlwaysReady queues n state calls := by
  rintro before after mid handed rfl hmid
  exact h before (after ++ calls') mid handed (by simp) hmid

/-- The calls after the first one. -/
theorem tail {call : PassiveCall} {next : ClauseStore × PassiveSet} {now : List (Option ClauseId)}
    (h : AlwaysReady queues n state (call :: calls)) (hnow : ops.perform state call = .ok (next, now)) :
    AlwaysReady queues (n + [call].countP (·.isNext)) next calls := by
  rintro before after mid handed rfl hmid
  have hready := h (call :: before) after mid (now ++ handed) rfl
    (PassiveOps.performAll_cons_of_eq hnow hmid)
  rwa [← List.singleton_append, List.countP_append, ← Nat.add_assoc] at hready

end AlwaysReady

namespace InStep

/-- Every call keeps the set in step with the timetable, and a request moves it on. -/
theorem perform {call : PassiveCall} (h : state.2.InStep queues n) (hstocked : state.2.Stocked state.1)
    (hsteady : ∀ storeCall, call = .store storeCall → ∀ q ∈ queues, q.1.accept.Steady)
    (hready : call = .next → Ready queues n state)
    (hcall : ops.perform state call = .ok (later, given)) :
    later.2.InStep queues (n + [call].countP (·.isNext)) ∧ later.2.Stocked later.1 := by
  cases call with
  | store storeCall =>
    cases hcall
    refine ⟨h, hstocked.of_extends (state.1.extends_perform storeCall)
      (hstocked.numbered.perform storeCall) fun slot hslot => ?_⟩
    obtain ⟨i, hi⟩ := List.getElem?_of_mem hslot
    obtain ⟨q, hq, -, haccept⟩ := h.exists_queue hi
    rw [haccept]
    exact hsteady storeCall rfl q (List.mem_of_getElem? hq)
  | add ids =>
    rw [PassiveOps.perform] at hcall
    cases hadd : ops.add state.1 state.2 ids with
    | error fault =>
      rw [hadd] at hcall
      cases hcall
    | ok after =>
      rw [hadd] at hcall
      cases hcall
      obtain ⟨newcomers, hnew, counters, rfl⟩ := exists_newcomers_of_add hadd
      have htaken := hstocked.takeIn hnew
      refine ⟨h.of_standing ?_ rfl rfl,
        htaken.numbered, htaken.known, htaken.nodup, htaken.held⟩
      simp only [PassiveSet.takeIn, List.map_map, Function.comp_def, PassiveSlot.standing_offerAll]
  | remove id =>
    cases hcall
    exact ⟨h.of_standing rfl rfl rfl, hstocked.remove id⟩
  | next =>
    obtain ⟨after, id, hnext, -, hafter⟩ := h.next_serves hstocked (hready rfl)
    have hperform : ops.perform state .next = .ok ((state.1, state.2.next.1), [state.2.next.2]) := rfl
    rw [hperform, hnext] at hcall
    cases hcall
    exact hafter
  | clean =>
    cases hcall
    refine ⟨h.of_standing ?_ rfl rfl, hstocked.clean⟩
    simp only [ops, PassiveSet.clean, List.map_map]
    rfl

/-- A run moves the set on by as many places in the timetable as there are requests. -/
theorem performAll (h : state.2.InStep queues n) (hstocked : state.2.Stocked state.1)
    (hsteady : ∀ storeCall, .store storeCall ∈ calls → ∀ q ∈ queues, q.1.accept.Steady)
    (hready : AlwaysReady queues n state calls)
    (hrun : ops.performAll state calls = .ok (later, given)) :
    later.2.InStep queues (n + calls.countP (·.isNext)) ∧ later.2.Stocked later.1 := by
  induction calls generalizing state n given with
  | nil =>
    cases hrun
    exact ⟨h, hstocked⟩
  | cons call calls ih =>
    obtain ⟨next, now, rest, hnow, hrest, -⟩ := PassiveOps.performAll_cons hrun
    obtain ⟨hnext, hnextStocked⟩ := h.perform hstocked
      (fun storeCall heq => hsteady storeCall (heq ▸ List.mem_cons_self))
      (fun heq => hready [] calls state [] (heq ▸ rfl) rfl) hnow
    rw [← List.singleton_append, List.countP_append, ← Nat.add_assoc]
    exact ih hnext hnextStocked
      (fun storeCall hmem => hsteady storeCall (List.mem_cons_of_mem call hmem)) (hready.tail hnow) hrest

end InStep

/-- A new set is at the beginning of the timetable. -/
theorem inStep_new {empty : PassiveSet} (hne : queues ≠ []) (hnew : new queues = .ok empty) :
    empty.InStep queues 0 := by
  obtain ⟨hpositive, rfl⟩ := of_new_eq_ok hnew
  refine ⟨hpositive, fun i => ?_, ⟨?_, Nat.zero_le _⟩, rfl⟩
  · simp only [List.getElem?_map, Option.map_map, Round.quota_zero]
    rfl
  · simpa [round] using List.length_pos_of_ne_nil hne

/-- A new set has no live clauses, whatever its queues hold. -/
theorem stocked_new {store : ClauseStore} {empty : PassiveSet} (hnumbered : store.Numbered)
    (hnew : new queues = .ok empty) : empty.Stocked store := by
  obtain ⟨-, rfl⟩ := of_new_eq_ok hnew
  exact ⟨hnumbered, fun _ hid => absurd hid List.not_mem_nil, List.nodup_nil,
    fun _ _ _ hid => absurd hid List.not_mem_nil⟩

/-- **Exact quotas.** In a run of a new passive set, let the queue whose turn it is in the timetable accept
some live clause whenever a clause is asked for. Then that queue serves the request, and in the end each queue
has handed out as many clauses as the timetable has requests for it: its coefficient for every full round,
and its share of the last round. The queues need not be empty at the beginning; only if the store changes
during the run must what they accept not depend on the descendants of clauses. -/
theorem served_exactly (ordering : TermOrder) (selector : Selector) (made : List StoreCall)
    {empty : PassiveSet} (hne : queues ≠ []) (hnew : new queues = .ok empty) {store : ClauseStore}
    {passive : PassiveSet}
    (hsteady : ∀ storeCall, .store storeCall ∈ calls → ∀ q ∈ queues, q.1.accept.Steady)
    (hrun : ops.performAll ((ClauseStore.new ordering selector).performAll made, empty) calls =
      .ok ((store, passive), given))
    (hready : AlwaysReady queues 0 ((ClauseStore.new ordering selector).performAll made, empty) calls) :
    (∀ before after position, calls = before ++ .next :: after →
      Round.IsTurn (queues.map (·.2)) position (before.countP (·.isNext)) →
      ∃ state handed served id,
        ops.performAll ((ClauseStore.new ordering selector).performAll made, empty) before =
          .ok (state, handed) ∧
        state.2.next = (served, some id) ∧ ServedBy position state.2 served id) ∧
    passive.served = queues.mapIdx fun i q =>
      (q.1.name, q.2 * (calls.countP (·.isNext) / (queues.map (·.2)).sum) +
        min q.2 (calls.countP (·.isNext) % (queues.map (·.2)).sum - ((queues.map (·.2)).take i).sum)) := by
  have hstart := inStep_new hne hnew
  have hstocked := stocked_new ((ClauseStore.numbered_new ordering selector).performAll made) hnew
  constructor
  · rintro before after position rfl hturn
    obtain ⟨state, handed, hbefore⟩ := PassiveOps.performAll_of_append hrun
    have hnow := hready before after state handed rfl hbefore
    obtain ⟨hstate, hstateStocked⟩ := hstart.performAll hstocked
      (fun storeCall hmem => hsteady storeCall (List.mem_append_left _ hmem)) hready.of_append hbefore
    rw [Nat.zero_add] at hnow hstate
    obtain ⟨served, id, hnext, hserved, -⟩ := hstate.next_serves hstateStocked hnow
    exact ⟨state, handed, served, id, hbefore, hnext, hserved position hturn⟩
  · obtain ⟨hlast, -⟩ := hstart.performAll hstocked hsteady hready hrun
    rw [Nat.zero_add] at hlast
    refine List.ext_getElem? fun i => ?_
    have hslot := congrArg (Option.map fun s => (s.1, s.2.2.2)) (hlast.slots i)
    simpa [PassiveSet.served, Function.comp_def, PassiveSlot.standing, Round.quota] using hslot

/-- A queue that takes goals, lightest first, in turns of two, and one that takes all clauses, oldest first. -/
def goalsAndFifo : List (ClauseQueue × Nat) :=
  [({ name := "goals", weight := .symbols, accept := .goals }, 2),
    ({ name := "fifo", weight := .age, accept := .all }, 1)]

/-- Seven requests, while clauses come and go: two rounds and the first request of a third. In the second
round both queues have a stale entry in front. -/
theorem served_exactly_goalsAndFifo :
    let made : List StoreCall := [.create inequality, .create otherInequality]
    let calls : List PassiveCall := [.add [0, 1, 2], .next, .next, .next, .add [1, 2], .remove 1, .next,
      .store (.setSelector (.preset .none)), .add [1], .next, .add [2], .next, .clean, .add [1], .next]
    ∃ empty store passive, new goalsAndFifo = .ok empty ∧
      ops.performAll ((ClauseStore.new (.kbo {}) (.preset .none)).performAll made, empty) calls =
        .ok ((store, passive), [some 1, some 2, some 0, some 2, some 1, some 2, some 1]) ∧
      AlwaysReady goalsAndFifo 0 ((ClauseStore.new (.kbo {}) (.preset .none)).performAll made, empty) calls ∧
      passive.served = [("goals", 5), ("fifo", 2)] := by
  intro made calls
  obtain ⟨empty, hnew⟩ : ∃ empty, new goalsAndFifo = .ok empty := ⟨_, rfl⟩
  have hstore : (ClauseStore.new (.kbo {}) (.preset .none)).performAll made = inequalitiesStore := rfl
  have hready : AlwaysReady goalsAndFifo 0
      ((ClauseStore.new (.kbo {}) (.preset .none)).performAll made, empty) calls := by
    cases hnew
    rw [hstore, inequalitiesStore_eq]
    decide +kernel
  have hgiven :
      (ops.performAll ((ClauseStore.new (.kbo {}) (.preset .none)).performAll made, empty) calls).map (·.2) =
        .ok [some 1, some 2, some 0, some 2, some 1, some 2, some 1] := by
    cases hnew
    rw [hstore, inequalitiesStore_eq]
    decide +kernel
  have hsteady : ∀ q ∈ goalsAndFifo, q.1.accept.Steady := by
    intro q hq
    simp only [goalsAndFifo, List.mem_cons, List.not_mem_nil, or_false] at hq
    rcases hq with rfl | rfl <;> exact fun _ _ => rfl
  cases hrun : ops.performAll ((ClauseStore.new (.kbo {}) (.preset .none)).performAll made, empty) calls with
  | error fault =>
    rw [hrun] at hgiven
    cases hgiven
  | ok result =>
    obtain ⟨⟨store, passive⟩, given⟩ := result
    rw [hrun] at hgiven
    cases hgiven
    obtain ⟨-, hserved⟩ := served_exactly (.kbo {}) (.preset .none) made (by decide) hnew
      (fun _ _ => hsteady) hrun hready
    exact ⟨empty, store, passive, hnew, hrun, hready, hserved.trans (by decide)⟩

end PassiveSet

end GivenClause
