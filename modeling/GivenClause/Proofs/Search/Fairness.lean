import GivenClause.Proofs.Search.AgeTurns

/-! # No clause starves

A clause that waits in a passive set with a queue by age is handed out after a number of requests that is
known in advance, however the other queues are made and whatever younger clauses keep arriving. The number
falls with each clause that is handed out: an older one leaves fewer clauses to wait for, and one from the
turn of another queue brings the turn of the queue by age nearer.

* `PassiveCall.AllSpare` are runs in which the clause is not removed and no older clause is added;
* `PassiveSet.requests` is the number of requests, `PassiveSet.AgeFair.perform_spares` what one call does
  to it and `PassiveSet.AgeFair.performAll_serves` what follows for a run;
* `PassiveSet.served_within` bounds it by the coefficients and the number of older clauses. -/

namespace GivenClause

open InsertionOrder

/-! ## Runs while a clause waits -/

namespace PassiveCall

/-- A call that spares a waiting clause: neither is the clause removed nor an older one added. -/
def Spares (store : ClauseStore) (x : ClauseId) : PassiveCall → Prop
  | .add ids => ∀ id ∈ ids, store.isOlder x id = true
  | .remove id => id ≠ x
  | _ => True

/-- The store after a call. -/
def storeAfter (store : ClauseStore) : PassiveCall → ClauseStore
  | .store call => (store.perform call).1
  | _ => store

/-- All calls of a run spare a waiting clause. -/
def AllSpare (x : ClauseId) : ClauseStore → List PassiveCall → Prop
  | _, [] => True
  | current, call :: calls => call.Spares current x ∧ AllSpare x (call.storeAfter current) calls

end PassiveCall

/-- What a run hands out to a clause that waits. -/
structure ServedWithin (x : ClauseId) (bound : Nat) (given : List (Option ClauseId)) : Prop where
  /-- The clause is among the first that are handed out, given enough requests. -/
  mem : bound ≤ given.length → some x ∈ given.take bound
  /-- No request before comes back with nothing. -/
  nonempty : none ∉ given.takeWhile (· ≠ some x)

namespace ServedWithin

variable {x id : ClauseId} {bound bound' : Nat} {given : List (Option ClauseId)}

theorem nil (x : ClauseId) (hbound : 0 < bound) : ServedWithin x bound [] := by
  refine ⟨fun hle => ?_, List.not_mem_nil⟩
  exact absurd hle (Nat.not_le.2 hbound)

theorem mono (h : ServedWithin x bound given) (hle : bound ≤ bound') :
    ServedWithin x bound' given :=
  ⟨fun hlength => List.take_subset_take_left given hle (h.mem (hle.trans hlength)), h.nonempty⟩

/-- The clause is handed out at once. -/
theorem now (given : List (Option ClauseId)) (hbound : 0 < bound) :
    ServedWithin x bound (some x :: given) := by
  obtain ⟨n, rfl⟩ := Nat.exists_eq_succ_of_ne_zero (Nat.ne_of_gt hbound)
  exact ⟨fun _ => by simp, by simp⟩

/-- Another clause is handed out first. -/
theorem after (h : ServedWithin x bound given) (hne : id ≠ x) :
    ServedWithin x (bound + 1) (some id :: given) := by
  refine ⟨fun hlength => ?_, ?_⟩
  · rw [List.take_succ_cons]
    exact List.mem_cons_of_mem _ (h.mem (Nat.le_of_succ_le_succ hlength))
  · rw [List.takeWhile_cons_of_pos (by simpa using hne)]
    simpa using h.nonempty

end ServedWithin

namespace PassiveSet

/-- A number of requests that is enough for a waiting clause: for every older clause that is live a round
of the other queues and the older clause, then what is left before the turn of the queue by age, and the
clause itself. -/
def requests (store : ClauseStore) (position turn : Nat) (x : ClauseId) (passive : PassiveSet) : Nat :=
  (passive.round.turns.sum - turn + 1) * passive.live.countP (store.isOlder · x) +
    passive.round.delay position + 1

namespace AgeFair

variable {store : ClauseStore} {turns : List Nat} {position turn : Nat} {passive after : PassiveSet}
  {x : ClauseId} {call : PassiveCall} {calls : List PassiveCall}

theorem requests_le (h : passive.AgeFair store turns position) (hturn : turns[position]? = some turn) :
    passive.requests store position turn x ≤
      (turns.sum - turn + 1) * (passive.live.countP (store.isOlder · x) + 1) := by
  have hdelay := Round.delay_le (h.turns_eq.symm ▸ hturn)
  rw [h.turns_eq] at hdelay
  rw [requests, h.turns_eq, Nat.mul_add_one]
  omega

/-- A clause that is handed out while another one waits leaves that one fewer requests. -/
theorem requests_lt (h : passive.AgeFair store turns position)
    (hafter : after.AgeFair store turns position) (hturn : turns[position]? = some turn)
    {id : ClauseId} (hserves : Serves store position x passive after id) (hne : id ≠ x) :
    after.requests store position turn x < passive.requests store position turn x := by
  have hperm := (List.perm_cons_erase hserves.mem).countP_eq (store.isOlder · x)
  rw [← hserves.live, List.countP_cons] at hperm
  have hdelay := Round.delay_le (hafter.turns_eq.symm ▸ hturn)
  rw [hafter.turns_eq] at hdelay
  rw [requests, requests, h.turns_eq, hafter.turns_eq]
  rcases hserves.nearer.resolve_left hne with holder | hnearer
  · -- one older clause less is worth a whole round
    rw [if_pos holder] at hperm
    rw [hperm, Nat.mul_add_one]
    omega
  · have hmono : (turns.sum - turn + 1) * after.live.countP (store.isOlder · x) ≤
        (turns.sum - turn + 1) * passive.live.countP (store.isOlder · x) :=
      Nat.mul_le_mul_left _ (by omega)
    omega

/-- The number of requests grows neither when the store does nor when clauses go or younger ones come. -/
theorem requests_le_of_live {later : ClauseStore} (hround : after.round = passive.round)
    (hlive : after.live.countP (later.isOlder · x) ≤ passive.live.countP (store.isOlder · x)) :
    after.requests later position turn x ≤ passive.requests store position turn x := by
  rw [requests, requests, hround]
  have hmono := Nat.mul_le_mul_left (passive.round.turns.sum - turn + 1) hlive
  omega

/-- A call that spares a clause does not fault. -/
theorem exists_perform (h : passive.AgeFair store turns position) (hspares : call.Spares store x) :
    ∃ after given, ops.perform (store, passive) call = .ok ((call.storeAfter store, after), given) ∧
      after.AgeFair (call.storeAfter store) turns position := by
  cases call with
  | add ids =>
    rcases h.add_cases ids with ⟨after, hadd, hafter, -⟩ | ⟨⟨id, hid, hnone⟩, -⟩
    · refine ⟨after, [], ?_, hafter⟩
      rw [PassiveOps.perform, hadd]
      rfl
    · obtain ⟨clause, hclause⟩ := ClauseStore.exists_get?_of_isOlder (hspares id hid)
      rw [hnone] at hclause
      cases hclause
  | store storeCall =>
    exact ⟨_, _, rfl, h.of_extends (store.extends_perform storeCall) (h.numbered.perform storeCall)⟩
  | remove id => exact ⟨_, _, rfl, h.remove id⟩
  | next => exact ⟨_, _, rfl, h.next⟩
  | clean => exact ⟨_, _, rfl, h.clean⟩

theorem exists_performAll (h : passive.AgeFair store turns position)
    (hspare : PassiveCall.AllSpare x store calls) :
    ∃ last given, ops.performAll (store, passive) calls = .ok (last, given) := by
  induction calls generalizing store passive with
  | nil => exact ⟨_, _, rfl⟩
  | cons call calls ih =>
    obtain ⟨after, now, hnow, hafter⟩ := h.exists_perform hspare.1
    obtain ⟨last, rest, hrest⟩ := ih hafter hspare.2
    exact ⟨last, now ++ rest, PassiveOps.performAll_cons_of_eq hnow hrest⟩

/-- What a call that spares a waiting clause can do: it hands the clause out, it hands out another one and
brings the clause nearer, or it hands out nothing and does not delay the clause. -/
theorem perform_spares (h : passive.AgeFair store turns position) (hturn : turns[position]? = some turn)
    (hx : x ∈ passive.live) (hspares : call.Spares store x) :
    ∃ after given, ops.perform (store, passive) call = .ok ((call.storeAfter store, after), given) ∧
      after.AgeFair (call.storeAfter store) turns position ∧
      (given = [some x] ∨ x ∈ after.live ∧
        ((∃ id, id ≠ x ∧ given = [some id] ∧
            after.requests (call.storeAfter store) position turn x <
              passive.requests store position turn x) ∨
          given = [] ∧ after.requests (call.storeAfter store) position turn x ≤
            passive.requests store position turn x)) := by
  obtain ⟨after, given, hperform, hafter⟩ := h.exists_perform hspares
  refine ⟨after, given, hperform, hafter, ?_⟩
  cases call with
  | store storeCall =>
    cases hperform
    refine Or.inr ⟨hx, Or.inr ⟨rfl, requests_le_of_live rfl (Nat.le_of_eq ?_)⟩⟩
    refine List.countP_congr fun id hid => ?_
    rw [PassiveCall.storeAfter, ClauseStore.isOlder_of_extends (store.extends_perform storeCall)
      (h.known id hid) (h.known x hx)]
  | add ids =>
    obtain ⟨after', hadd, -, hround, hlive⟩ | ⟨-, fault, hadd⟩ := h.add_cases ids
    · rw [PassiveOps.perform, hadd] at hperform
      cases hperform
      have hx' : x ∈ after.live := by
        rw [hlive]
        exact mem_insertAll.2 (Or.inl hx)
      refine Or.inr ⟨hx', Or.inr ⟨rfl, requests_le_of_live hround (Nat.le_of_eq ?_)⟩⟩
      rw [hlive]
      exact countP_insertAll _ fun id hid => ClauseStore.isOlder_asymm (hspares id hid)
    · rw [PassiveOps.perform, hadd] at hperform
      cases hperform
  | remove id =>
    cases hperform
    have hx' : x ∈ passive.live.erase id := (List.mem_erase_of_ne (Ne.symm hspares)).2 hx
    exact Or.inr ⟨hx', Or.inr ⟨rfl, requests_le_of_live rfl List.erase_sublist.countP_le⟩⟩
  | next =>
    obtain ⟨after', id, hnext, -, hserves⟩ := h.next_serves hx
    have hafter' : after = after' ∧ given = [some id] := by
      simp only [PassiveOps.perform, ops, hnext] at hperform
      cases hperform
      exact ⟨rfl, rfl⟩
    obtain ⟨rfl, rfl⟩ := hafter'
    by_cases heq : id = x
    · exact Or.inl (by rw [heq])
    · have hx' : x ∈ after.live := by
        rw [hserves.live]
        exact (List.mem_erase_of_ne (Ne.symm heq)).2 hx
      exact Or.inr ⟨hx', Or.inl ⟨id, heq, rfl, h.requests_lt hafter hturn hserves heq⟩⟩
  | clean =>
    cases hperform
    exact Or.inr ⟨hx, Or.inr ⟨rfl, requests_le_of_live (round_clean passive) (Nat.le_refl _)⟩⟩

/-- A waiting clause is handed out after no more than its number of requests. -/
theorem performAll_serves (h : passive.AgeFair store turns position)
    (hturn : turns[position]? = some turn) (hx : x ∈ passive.live)
    (hspare : PassiveCall.AllSpare x store calls) :
    ∃ last given, ops.performAll (store, passive) calls = .ok (last, given) ∧
      ServedWithin x (passive.requests store position turn x) given := by
  induction calls generalizing store passive with
  | nil => exact ⟨_, _, rfl, .nil x (Nat.succ_pos _)⟩
  | cons call calls ih =>
    obtain ⟨after, now, hnow, hafter, hcases⟩ := h.perform_spares hturn hx hspare.1
    rcases hcases with rfl | ⟨hx', ⟨id, hne, rfl, hlt⟩ | ⟨rfl, hle⟩⟩
    · -- what comes later does not matter any more
      obtain ⟨last, rest, hrest⟩ := hafter.exists_performAll hspare.2
      exact ⟨last, some x :: rest, PassiveOps.performAll_cons_of_eq hnow hrest,
        .now rest (Nat.succ_pos _)⟩
    · obtain ⟨last, rest, hrest, hserved⟩ := ih hafter hx' hspare.2
      exact ⟨last, some id :: rest, PassiveOps.performAll_cons_of_eq hnow hrest,
        (hserved.after hne).mono hlt⟩
    · obtain ⟨last, rest, hrest, hserved⟩ := ih hafter hx' hspare.2
      exact ⟨last, rest, PassiveOps.performAll_cons_of_eq hnow hrest, hserved.mono hle⟩

end AgeFair

/-- A new passive set that has a queue by age. -/
theorem ageFair_new {store : ClauseStore} (hstore : store.Numbered) {queues : List (ClauseQueue × Nat)}
    {empty : PassiveSet} (hnew : new queues = .ok empty) {position coefficient : Nat}
    {age : ClauseQueue} (hage : queues[position]? = some (age, coefficient))
    (hweight : age.weight = .age) (haccept : age.accept = .all) (hfilled : age.Filled store) :
    empty.AgeFair store (queues.map (·.2)) position := by
  obtain ⟨hpositive, rfl⟩ := of_new_eq_ok hnew
  have hlt : position < queues.length := (List.getElem?_eq_some_iff.1 hage).1
  have hsteady : age.Steady := by
    intro clause descendants
    rw [ClauseQueue.accepts, ClauseQueue.accepts, hweight, haccept]
    exact ⟨rfl, rfl⟩
  refine ⟨hstore, fun id hid => absurd hid List.not_mem_nil, List.nodup_nil, ?_, ⟨?_, Nat.zero_le _⟩,
    { queue := age, coefficient }, ?_, hweight, haccept, ?_⟩
  · simp only [round, List.map_map]
    rfl
  · simp only [round, List.length_map]
    omega
  · rw [List.getElem?_map, hage]
    rfl
  · refine ⟨hpositive _ (List.mem_of_getElem? hage), hsteady, hfilled.sorted, hfilled.sound, ?_⟩
    exact fun id hid => absurd hid List.not_mem_nil

/-- **No clause starves when a queue hands clauses out by age.** Let the queues hand out `S` clauses in a
round, `coefficient` of them by age, and let `k` live clauses be older than a live clause. Whatever is
done, as long as the clause is not removed and no older clause is added, it is handed out by one of the
next `(S - coefficient + 1) * (k + 1)` requests, and no request before comes back with nothing. -/
theorem served_within (ordering : TermOrder) (selector : Selector) (made : List StoreCall)
    {queues : List (ClauseQueue × Nat)} {empty : PassiveSet} (hnew : new queues = .ok empty)
    {age : ClauseQueue} {coefficient : Nat} (hage : (age, coefficient) ∈ queues)
    (hweight : age.weight = .age) (haccept : age.accept = .all)
    (hfilled : age.Filled ((ClauseStore.new ordering selector).performAll made))
    {before after : List PassiveCall} {store : ClauseStore} {passive : PassiveSet}
    {given : List (Option ClauseId)}
    (hrun : ops.performAll ((ClauseStore.new ordering selector).performAll made, empty) before =
      .ok ((store, passive), given))
    {x : ClauseId} (hx : x ∈ passive.live) (hafter : PassiveCall.AllSpare x store after) :
    ∃ last given', ops.performAll (store, passive) after = .ok (last, given') ∧
      ServedWithin x
        (((queues.map (·.2)).sum - coefficient + 1) *
          (passive.live.countP (store.isOlder · x) + 1)) given' := by
  obtain ⟨position, hposition⟩ := List.getElem?_of_mem hage
  have hturn : (queues.map (·.2))[position]? = some coefficient := by
    rw [List.getElem?_map, hposition, Option.map_some]
  have hnumbered := ClauseStore.performAll_induction (fun _ call h => h.perform call) _ made
    (ClauseStore.numbered_new ordering selector)
  have hstart := ageFair_new hnumbered hnew hposition hweight haccept hfilled
  -- the queue by age is usable in every state of the run
  have hfair : passive.AgeFair store (queues.map (·.2)) position :=
    PassiveOps.performAll_induction
      (motive := fun state => state.2.AgeFair state.1 (queues.map (·.2)) position)
      AgeFair.perform hrun hstart
  obtain ⟨last, given', hlast, hserved⟩ := hfair.performAll_serves hturn hx hafter
  exact ⟨last, given', hlast, hserved.mono (hfair.requests_le hturn)⟩

/-- A queue that always prefers the clause with number two, and a queue by age. -/
def favouriteAndFifo : List (ClauseQueue × Nat) :=
  [({ name := "favourite", weight := .custom fun clause => if clause.id = 2 then 0 else 1,
      accept := .all }, 2),
    ({ name := "fifo", weight := .age, accept := .all }, 1)]

/-- The goal `a ≠ c`. -/
def otherInequality : ClauseInput where
  literals := [.equation (.const 0) (.const 2) false]
  provenance := .input .axiomatic

/-- A new store to which both goals were added. -/
def inequalitiesStore : ClauseStore :=
  (inequalityStore.create otherInequality).1

theorem inequalitiesStore_eq :
    inequalitiesStore = ((((ClauseStore.bare (.kbo {}) (.preset .none)).createNew
      { literals := [.verum], provenance := (Provenance.input .axiomatic).persist }
      [.verum]).1.createNew inequality inequality.literals).1.createNew otherInequality
      otherInequality.literals).1 := by
  have hunknown : inequalityStore.table[inequalityStore.keyFor otherInequality]? = none := by
    rw [inequalityStore, ClauseStore.create_eq_createNew (by decide)
      (ClauseStore.getElem?_table_new (by decide)), ClauseStore.getElem?_table_createNew (by decide),
      ClauseStore.getElem?_table_new (by decide)]
  rw [inequalitiesStore, ClauseStore.create_eq_createNew (by decide) hunknown, inequalityStore_eq]
  rfl

/-- All three clauses wait. -/
def allWaiting : PassiveSet where
  live := [0, 1, 2]
  slots :=
    [{ queue :=
        { name := "favourite", weight := .custom fun clause => if clause.id = 2 then 0 else 1,
          accept := .all, items := [(0, 2), (1, 0), (1, 1)] }
       coefficient := 2 },
      { queue := { name := "fifo", weight := .age, accept := .all, items := [(0, 0), (1, 1), (2, 2)] }
        coefficient := 1 }]
  counters := { added := 3 }

/-- The favourite comes back each time, so that the goal is handed out last, by the sixth request. -/
theorem served_within_favouriteAndFifo :
    let made : List StoreCall := [.create inequality, .create otherInequality]
    let after : List PassiveCall := [.next, .add [2], .next, .add [2], .next, .clean, .next, .add [2],
      .next, .add [2], .next]
    ∃ empty store last, new favouriteAndFifo = .ok empty ∧
      ops.performAll ((ClauseStore.new (.kbo {}) (.preset .none)).performAll made, empty) [.add [0, 1, 2]] =
        .ok ((store, allWaiting), []) ∧
      PassiveCall.AllSpare 1 store after ∧ allWaiting.live.countP (store.isOlder · 1) = 1 ∧
      ops.performAll (store, allWaiting) after =
        .ok (last, [some 2, some 2, some 0, some 2, some 2, some 1]) ∧
      ServedWithin 1 ((2 + 1 - 1 + 1) * (1 + 1)) [some 2, some 2, some 0, some 2, some 2, some 1] := by
  intro made after
  obtain ⟨empty, hnew⟩ : ∃ empty, new favouriteAndFifo = .ok empty := ⟨_, rfl⟩
  have hrun : ops.performAll ((ClauseStore.new (.kbo {}) (.preset .none)).performAll made, empty)
      [.add [0, 1, 2]] = .ok ((inequalitiesStore, allWaiting), []) := by
    cases hnew
    show ops.performAll (inequalitiesStore, _) _ = _
    rw [inequalitiesStore_eq]
    rfl
  have hspare : PassiveCall.AllSpare 1 inequalitiesStore after := by
    have holder : inequalitiesStore.isOlder 1 2 = true := by
      rw [inequalitiesStore_eq]
      decide +kernel
    simp [after, PassiveCall.AllSpare, PassiveCall.Spares, PassiveCall.storeAfter, holder]
  have holder : allWaiting.live.countP (inequalitiesStore.isOlder · 1) = 1 := by
    rw [inequalitiesStore_eq]
    decide +kernel
  have hfilled : ClauseQueue.Filled ((ClauseStore.new (.kbo {}) (.preset .none)).performAll made)
      { name := "fifo", weight := .age, accept := .all } :=
    ⟨.nil, fun item hitem => absurd hitem List.not_mem_nil⟩
  obtain ⟨last, given, hlast, hserved⟩ := served_within (.kbo {}) (.preset .none) made hnew
    (List.mem_cons_of_mem _ List.mem_cons_self) rfl rfl hfilled hrun (by decide) hspare
  have hgiven : (ops.performAll (inequalitiesStore, allWaiting) after).map (·.2) =
      .ok [some 2, some 2, some 0, some 2, some 2, some 1] := by
    rw [inequalitiesStore_eq]
    decide +kernel
  rw [hlast] at hgiven
  cases hgiven
  rw [holder] at hserved
  exact ⟨empty, inequalitiesStore, last, hnew, hrun, hspare, holder, hlast, hserved⟩

end PassiveSet

end GivenClause
