import GivenClause.Proofs.Search.EagerPassive

/-! # Passive sets and sets without entries

Whatever stale entries its queues hold, a faithful passive set behaves as the set without entries: each
operation commutes with forgetting the entries.

* `PassiveSet.withoutEntries` forgets the entries;
* `PassiveSet.Faithful.add_outcome`, `PassiveSet.withoutEntries_remove`,
  `PassiveSet.withoutEntries_clean` and `PassiveSet.Faithful.next_eq`: the operations commute with it. -/

namespace GivenClause

open InsertionOrder

/-! ## Forgetting entries -/

/-- A queue of a passive set without its entries. -/
def PassiveSlot.withoutEntries (slot : PassiveSlot) : EagerSlot where
  weight := slot.queue.weight
  accept := slot.queue.accept
  coefficient := slot.coefficient
  served := slot.served

namespace PassiveSet

/-- A passive set without its queue entries. -/
def withoutEntries (passive : PassiveSet) : EagerPassive where
  live := passive.live
  slots := passive.slots.map PassiveSlot.withoutEntries
  current := passive.current
  taken := passive.taken

variable {store : ClauseStore} {passive : PassiveSet}

@[simp] theorem withoutEntries_slots_length :
    passive.withoutEntries.slots.length = passive.slots.length :=
  List.length_map ..

/-- Removing a clause is the same with and without entries. -/
theorem withoutEntries_remove (passive : PassiveSet) (id : ClauseId) :
    (passive.remove id).1.withoutEntries = passive.withoutEntries.remove id := rfl

/-- Cleaning changes entries only. -/
theorem withoutEntries_clean (passive : PassiveSet) :
    passive.clean.1.withoutEntries = passive.withoutEntries := by
  simp only [withoutEntries, clean, List.map_map]
  rfl

/-- Offering a clause to the queues changes entries only. -/
theorem withoutEntries_offer (passive : PassiveSet) (clause : Clause) :
    (passive.offer clause).withoutEntries = passive.withoutEntries := by
  have hslot : ∀ slot : PassiveSlot,
      PassiveSlot.withoutEntries { slot with queue := slot.queue.add clause } =
        slot.withoutEntries := by
    intro slot
    rw [ClauseQueue.add]
    split <;> rfl
  simp only [withoutEntries, offer, List.map_map]
  congr 1
  exact List.map_congr_left fun slot _ => hslot slot

/-! ## Adding clauses -/

/-- What adding clauses gives: the same as without entries, a fault included. -/
inductive AddOutcome (store : ClauseStore) (passive : PassiveSet) (ids : List ClauseId) :
    PassiveSet × Except Fault Nat → Prop where
  /-- The clauses are live. -/
  | added {later : PassiveSet} {fresh : Nat} (faithful : later.Faithful store)
    (same : passive.withoutEntries.add store ids = .ok later.withoutEntries) :
    AddOutcome store passive ids (later, .ok fresh)
  /-- A number is not in the store. -/
  | unknown {later : PassiveSet} {fault : Fault}
    (same : passive.withoutEntries.add store ids = .error fault) :
    AddOutcome store passive ids (later, .error fault)

theorem AddOutcome.congr {passive' : PassiveSet} {ids ids' : List ClauseId}
    {result : PassiveSet × Except Fault Nat}
    (heq : passive.withoutEntries.add store ids = passive'.withoutEntries.add store ids')
    (h : AddOutcome store passive' ids' result) : AddOutcome store passive ids result := by
  cases h with
  | added faithful same => exact .added faithful (heq.trans same)
  | unknown same => exact .unknown (heq.trans same)

theorem addFrom_outcome (h : passive.Faithful store) (fresh : Nat) (ids : List ClauseId) :
    AddOutcome store passive ids (addFrom store fresh passive ids) := by
  induction ids generalizing passive fresh with
  | nil => exact .added h rfl
  | cons id ids ih =>
    rw [addFrom]
    split
    · next hlive =>
      -- a live clause is in the store, and making it live changes nothing
      rw [contains_iff] at hlive
      obtain ⟨clause, hclause⟩ := h.known id hlive
      refine (ih h fresh).congr ?_
      rw [EagerPassive.add, ClauseStore.get, hclause]
      dsimp only [withoutEntries]
      rw [insertNew_of_mem hlive]
      rfl
    · dsimp only
      split
      · next fault hget =>
        refine .unknown ?_
        rw [EagerPassive.add, hget]
        rfl
      · next clause hget =>
        refine (ih (h.insert (ClauseStore.get_eq_ok_iff.1 hget)) (fresh + 1)).congr ?_
        rw [EagerPassive.add, hget, withoutEntries_offer]
        rfl

/-- Adding clauses is the same with and without entries. -/
theorem Faithful.add_outcome (h : passive.Faithful store) (ids : List ClauseId) :
    AddOutcome store passive ids (passive.add store ids) := by
  have houtcome := addFrom_outcome h 0 ids
  rw [add]
  split
  · next later fault heq =>
    rw [heq] at houtcome
    cases houtcome with
    | unknown same => exact .unknown same
  · next later fresh heq =>
    rw [heq] at houtcome
    cases houtcome with
    | added faithful same => exact .added (faithful.withCounters _) same

/-! ## One turn -/

end PassiveSet

namespace PassiveSlot.Faithful

variable {store : ClauseStore} {passive : PassiveSet} {slot : PassiveSlot}

/-- A queue without live entries accepts no live clause. -/
theorem candidates_eq_nil (h : slot.Faithful store passive.live)
    (hstale : ∀ item ∈ slot.queue.items, passive.contains item.2 = false) :
    passive.withoutEntries.candidates store slot.withoutEntries = [] := by
  rw [EagerPassive.candidates, List.filterMap_eq_nil_iff]
  intro id hid
  by_contra hentry
  obtain ⟨item, hitem⟩ := Option.ne_none_iff_exists'.1 hentry
  have hlive := hstale item (h.complete id hid item hitem)
  rw [ClauseStore.entryFor?_eq_some hitem, PassiveSet.contains_iff.2 hid] at hlive
  cases hlive

/-- The first live entry of a queue is that of the least live clause that it accepts. -/
theorem least?_candidates (h : slot.Faithful store passive.live) {dropped rest : List QueueItem}
    {item : QueueItem} (hitems : slot.queue.items = dropped ++ item :: rest)
    (hdropped : ∀ d ∈ dropped, passive.contains d.2 = false)
    (hlive : passive.contains item.2 = true) :
    QueueItem.least? (passive.withoutEntries.candidates store slot.withoutEntries) = some item := by
  have hsorted := h.sorted
  rw [hitems, List.pairwise_append, List.pairwise_cons] at hsorted
  rw [QueueItem.least?_eq_some_iff, EagerPassive.candidates]
  constructor
  · have hitem : item ∈ slot.queue.items := by simp [hitems]
    exact List.mem_filterMap.2 ⟨item.2, PassiveSet.contains_iff.1 hlive, h.sound item hitem⟩
  · intro other hother hbefore
    obtain ⟨id, hid, hentry⟩ := List.mem_filterMap.1 hother
    have hmem := h.complete id hid other hentry
    -- a live entry before the first one would be among those that were dropped
    rw [hitems, List.mem_append, List.mem_cons] at hmem
    rcases hmem with hmem | rfl | hmem
    · have hstale := hdropped other hmem
      rw [ClauseStore.entryFor?_eq_some hentry, PassiveSet.contains_iff.2 hid] at hstale
      cases hstale
    · exact QueueItem.not_before_self hbefore
    · exact QueueItem.before_asymm hbefore (hsorted.2.1.1 other hmem)

/-- Entries that are all stale can be dropped. -/
theorem emptied (h : slot.Faithful store passive.live)
    (hstale : ∀ item ∈ slot.queue.items, passive.contains item.2 = false) :
    PassiveSlot.Faithful store passive.live
      { slot with queue := { slot.queue with items := [] } } := by
  refine h.withItems (List.nil_sublist _) ?_ fun _ hid => hid
  intro item hitem hlive
  rw [← PassiveSet.contains_iff, hstale item hitem] at hlive
  cases hlive

/-- When the first live entry is handed out, it goes together with the stale ones in front of it. -/
theorem afterServing (h : slot.Faithful store passive.live) (hnodup : passive.live.Nodup)
    {dropped rest : List QueueItem} {item : QueueItem}
    (hitems : slot.queue.items = dropped ++ item :: rest)
    (hdropped : ∀ d ∈ dropped, passive.contains d.2 = false) :
    PassiveSlot.Faithful store (passive.live.erase item.2)
      { slot with queue := { slot.queue with items := rest }, served := slot.served + 1 } := by
  refine h.withItems ?_ ?_ fun _ hid => List.mem_of_mem_erase hid
  · rw [hitems]
    exact (List.sublist_cons_self item rest).trans (List.sublist_append_right dropped _)
  · intro other hother hid
    -- what is still live was neither dropped nor handed out
    rw [hnodup.mem_erase_iff] at hid
    rw [hitems, List.mem_append, List.mem_cons] at hother
    rcases hother with hother | rfl | hother
    · rw [← PassiveSet.contains_iff, hdropped other hother] at hid
      cases hid.2
    · exact absurd rfl hid.1
    · exact hother

end PassiveSlot.Faithful

namespace PassiveSet

variable {store : ClauseStore} {passive : PassiveSet}

/-- What the turn of the queue under the cursor gives. -/
inductive TurnOutcome (store : ClauseStore) (model : EagerPassive) :
    PassiveSet × Option ClauseId → Prop where
  /-- The turn is over, or the queue accepts no live clause. At most entries are dropped. -/
  | passed {later : PassiveSet} (faithful : later.Faithful store) (same : later.withoutEntries = model)
    (nothing : model.isOpen = true → model.serve? store (model.current, model.taken) = none) :
    TurnOutcome store model (later, none)
  /-- The queue hands out a clause. -/
  | served {later : PassiveSet} {id : ClauseId} (faithful : later.Faithful store)
    (isOpen : model.isOpen = true)
    (same : model.serve? store (model.current, model.taken) = some (later.withoutEntries, id)) :
    TurnOutcome store model (later, some id)

/-- Replacing the slot under the cursor by a usable one, with the clauses that are then live. -/
theorem Faithful.setSlot (h : passive.Faithful store) {live : List ClauseId} {slot : PassiveSlot}
    (hlive : live.Sublist passive.live) (hslot : slot.Faithful store live) (taken : Nat)
    (counters : PassiveStats) :
    Faithful store
      { passive with live, slots := passive.slots.set passive.current slot, taken, counters } where
  numbered := h.numbered
  known := fun id hid => h.known id (hlive.subset hid)
  nodup := h.nodup.sublist hlive
  slots := by
    intro other hother
    rcases List.mem_or_eq_of_mem_set hother with hother | rfl
    · exact (h.slots other hother).mono fun _ hid => hlive.subset hid
    · exact hslot
  cursor := by simpa using h.cursor

theorem isOpen_withoutEntries {slot : PassiveSlot}
    (h : passive.slots[passive.current]? = some slot) :
    passive.withoutEntries.isOpen = decide (passive.taken < slot.coefficient) := by
  have hslot : passive.withoutEntries.slots[passive.withoutEntries.current]? =
      some slot.withoutEntries := by
    show (passive.slots.map PassiveSlot.withoutEntries)[passive.current]? = _
    rw [List.getElem?_map, h, Option.map_some]
  rw [EagerPassive.isOpen, hslot]
  rfl

/-- The turn of the queue under the cursor is the same with and without entries. -/
theorem Faithful.takeFromCurrent_outcome (h : passive.Faithful store) (hne : passive.slots ≠ []) :
    TurnOutcome store passive.withoutEntries passive.takeFromCurrent := by
  have hlt := h.cursor hne
  set slot := passive.slots[passive.current] with hset
  have hslot : passive.slots[passive.current]? = some slot := List.getElem?_eq_getElem hlt
  have hslot' : passive.withoutEntries.slots[passive.current]? = some slot.withoutEntries := by
    rw [withoutEntries, List.getElem?_map, hslot, Option.map_some]
  have hfaithful := h.slots slot (List.mem_of_getElem? hslot)
  have hopen := isOpen_withoutEntries hslot
  obtain ⟨hover, htake⟩ | ⟨-, hstale, counters, htake⟩ |
    ⟨hturn, dropped, item, rest, counters, hitems, hdropped, hlive, htake⟩ :=
    takeFromCurrent_cases hslot
  · rw [htake]
    refine .passed h rfl fun hopen' => ?_
    rw [hopen, decide_eq_true_iff] at hopen'
    omega
  · rw [htake]
    refine .passed (h.setSlot (List.Sublist.refl _) (hfaithful.emptied hstale) _ _) ?_ fun _ => ?_
    · -- the slot differs in its entries only
      have hsame : (passive.slots.map PassiveSlot.withoutEntries).set passive.current
          slot.withoutEntries = passive.slots.map PassiveSlot.withoutEntries := by
        rw [← List.map_set, hset, List.set_getElem_self]
      simp only [withoutEntries, List.map_set]
      exact congrArg (EagerPassive.mk _ · _ _) hsame
    · rw [EagerPassive.serve?_eq_map hslot', hfaithful.candidates_eq_nil hstale]
      rfl
  · rw [htake]
    refine .served (h.setSlot List.erase_sublist ?_ _ _) (hopen.trans (decide_eq_true hturn)) ?_
    · exact hfaithful.afterServing h.nodup hitems hdropped
    · rw [EagerPassive.serve?_eq_map hslot',
        hfaithful.least?_candidates hitems hdropped hlive, Option.map_some]
      simp only [withoutEntries, List.map_set]
      rfl

/-! ## Handing out -/

/-- What trying `turns` one after the other gives, where `after` is the set when none has a clause. -/
inductive NextOutcome (store : ClauseStore) (model : EagerPassive) (turns : List (Nat × Nat))
    (after : EagerPassive) : PassiveSet × Option ClauseId → Prop where
  /-- No turn has a clause. -/
  | exhausted {later : PassiveSet} (faithful : later.Faithful store)
    (nothing : turns.findSome? (model.serve? store) = none) (same : later.withoutEntries = after) :
    NextOutcome store model turns after (later, none)
  /-- The first turn that has a clause hands it out. -/
  | given {later : PassiveSet} {id : ClauseId} (faithful : later.Faithful store)
    (same : turns.findSome? (model.serve? store) = some (later.withoutEntries, id)) :
    NextOutcome store model turns after (later, some id)

/-- A turn without a clause is followed by the others. -/
theorem NextOutcome.cons {model after : EagerPassive} {turn : Nat × Nat} {turns : List (Nat × Nat)}
    {result : PassiveSet × Option ClauseId} (hturn : model.serve? store turn = none)
    (h : NextOutcome store model turns after result) :
    NextOutcome store model (turn :: turns) after result := by
  have hturns : (turn :: turns).findSome? (model.serve? store) =
      turns.findSome? (model.serve? store) := by
    rw [List.findSome?_cons, hturn]
  cases h with
  | exhausted faithful nothing same => exact .exhausted faithful (hturns.trans nothing) same
  | given faithful same => exact .given faithful (hturns.trans same)

/-- Where the cursor is does not matter for new turns. -/
theorem NextOutcome.of_turnTo {model after : EagerPassive} {turns : List (Nat × Nat)}
    {result : PassiveSet × Option ClauseId} (position : Nat)
    (h : NextOutcome store (model.turnTo position) turns after result) :
    NextOutcome store model turns after result := by
  have hserve : (model.turnTo position).serve? store = model.serve? store :=
    EagerPassive.serve?_congr rfl rfl
  cases h with
  | exhausted faithful nothing same => exact .exhausted faithful (hserve ▸ nothing) same
  | given faithful same => exact .given faithful (hserve ▸ same)

/-- Moving the cursor gives the next queue a new turn. -/
theorem withoutEntries_advance (passive : PassiveSet) :
    passive.advance.withoutEntries =
      passive.withoutEntries.turnTo (passive.withoutEntries.current + 1) := by
  rw [EagerPassive.turnTo, withoutEntries_slots_length]
  rfl

theorem slots_eq_nil_iff : passive.withoutEntries.slots = [] ↔ passive.slots = [] :=
  List.map_eq_nil_iff

theorem Faithful.withoutEntries_cursor (h : passive.Faithful store) (hne : passive.slots ≠ []) :
    passive.withoutEntries.current < passive.withoutEntries.slots.length := by
  rw [withoutEntries_slots_length]
  exact h.cursor hne

/-- A queue at the beginning of its turn may hand out a clause. -/
theorem Faithful.isOpen_of_taken_eq_zero (h : passive.Faithful store) (hne : passive.slots ≠ [])
    (htaken : passive.taken = 0) : passive.withoutEntries.isOpen = true := by
  have hslot := List.getElem?_eq_getElem (h.cursor hne)
  rw [isOpen_withoutEntries hslot, htaken, decide_eq_true_iff]
  exact (h.slots _ (List.mem_of_getElem? hslot)).positive

/-- Once a turn has passed, the next `visits` queues in cyclic order have new turns. -/
theorem Faithful.nextWithin_outcome {model : EagerPassive} (visits : Nat) (h : passive.Faithful store)
    (same : passive.withoutEntries = model) (hne : model.slots ≠ []) :
    NextOutcome store model (model.freshTurns (model.current + 1) visits)
      (model.turnTo (model.current + 1 + visits)) (nextWithin visits passive.advance) := by
  have hadvance : passive.advance.withoutEntries = model.turnTo (model.current + 1) :=
    same ▸ passive.withoutEntries_advance
  induction visits generalizing passive model with
  | zero => exact .exhausted h.advance rfl hadvance
  | succ visits ih =>
    have hslots : passive.advance.slots ≠ [] := by
      rw [← slots_eq_nil_iff.ne, hadvance]
      exact hne
    have hopen := h.advance.isOpen_of_taken_eq_zero hslots rfl
    have hturn := h.advance.takeFromCurrent_outcome hslots
    rw [hadvance] at hopen hturn
    rw [EagerPassive.freshTurns_succ, nextWithin]
    generalize passive.advance.takeFromCurrent = result at hturn ⊢
    refine .of_turnTo (model.current + 1) ?_
    cases hturn with
    | @served later id faithful _ same =>
      have hserve : (model.turnTo (model.current + 1)).serve? store
          ((model.current + 1) % model.slots.length, 0) = some (later.withoutEntries, id) := same
      refine .given faithful ?_
      rw [List.findSome?_cons, hserve]
    | @passed later faithful same nothing =>
      have hrest := ih faithful same hne (same ▸ later.withoutEntries_advance)
      rw [EagerPassive.freshTurns_turnTo, Nat.add_assoc _ 1 visits, EagerPassive.turnTo_turnTo,
        Nat.add_comm 1 visits] at hrest
      exact .cons (nothing hopen) hrest

/-- The turns of a passive set are those of the set without entries. -/
theorem Faithful.next_outcome (h : passive.Faithful store) :
    NextOutcome store passive.withoutEntries passive.withoutEntries.turns
      passive.withoutEntries.pass passive.next := by
  set model := passive.withoutEntries with hmodel
  rw [next]
  split
  · next hslots =>
    -- without queues there are no turns
    have hnil : model.slots = [] := slots_eq_nil_iff.2 (List.isEmpty_iff.1 hslots)
    refine .exhausted h ?_ ?_
    · simp [EagerPassive.turns, EagerPassive.isOpen, EagerPassive.freshTurns, hnil]
    · rw [EagerPassive.pass, hnil]
      exact hmodel.symm
  · next hslots =>
    have hne : model.slots ≠ [] := slots_eq_nil_iff.ne.2 (List.isEmpty_iff.ne.1 hslots)
    -- after as many visits as there are queues the cursor is where it was after the first
    have hpass : model.pass = model.turnTo (model.current + 1 + model.slots.length) := by
      rw [EagerPassive.pass, if_neg (List.isEmpty_iff.ne.2 hne)]
      simp only [EagerPassive.turnTo, Nat.add_mod_right]
    have hturn := h.takeFromCurrent_outcome (slots_eq_nil_iff.ne.1 hne)
    rw [EagerPassive.turns, ← withoutEntries_slots_length, nextWithin]
    generalize passive.takeFromCurrent = result at hturn ⊢
    cases hturn with
    | served faithful isOpen same =>
      refine .given faithful ?_
      rw [if_pos isOpen, List.findSome?_cons, same]
    | passed faithful same nothing =>
      have hrest := faithful.nextWithin_outcome model.slots.length same hne
      rw [← hpass] at hrest
      split
      · next hopen => exact .cons (nothing hopen) hrest
      · exact hrest

/-- Handing out a clause is the same with and without entries. -/
theorem Faithful.next_eq (h : passive.Faithful store) :
    passive.withoutEntries.next store = (passive.next.1.withoutEntries, passive.next.2) := by
  have houtcome := h.next_outcome
  generalize passive.next = result at houtcome
  rw [EagerPassive.next]
  cases houtcome with
  | exhausted _ nothing same => rw [nothing, same]
  | given _ same => rw [same]

/-- Handing out a clause keeps a passive set faithful. -/
theorem Faithful.next (h : passive.Faithful store) : passive.next.1.Faithful store := by
  have houtcome := h.next_outcome
  generalize passive.next = result at houtcome
  cases houtcome with
  | exhausted faithful => exact faithful
  | given faithful => exact faithful

end PassiveSet

end GivenClause
