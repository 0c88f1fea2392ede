import GivenClause.Proofs.Clause.StoreIntegrity
import GivenClause.Proofs.Search.PassiveRuns
import GivenClause.Search.ProofState

/-! # Exhausted searches

A search that has no clause left to give either has none waiting, or only such that none of its queues
accepts. Its verdict tells whether a clause was too long to be made, and nothing else, so that clauses
which are stuck in this way go unnoticed.

* `SearchCall` and `ProofState.performAll` are runs of a search, `PassiveEvent` what happens in them to
  waiting clauses;
* `ClauseStore.WellFormed.incomplete_performAll` says which calls to a store ask for a clause that is too
  long, among them those of an expert;
* `PassiveEvent.waiting` replays these events, `ProofState.Kept.performAll` says that this gives the live
  clauses;
* `ProofState.exhausted_satisfiable_iff`: when a search ends with the verdict that its clauses are
  satisfiable. -/

namespace GivenClause

open InsertionOrder

/-! ## Calls and events -/

/-- A call of a search. -/
inductive SearchCall where
  /-- Makes or finds a clause. -/
  | create (input : ClauseInput)
  /-- Lets clauses wait. -/
  | addPassive (ids : List ClauseId)
  /-- Asks an expert for its initial clauses and lets them wait. -/
  | addExpert (expert : Expert)
  /-- Asks for a clause. -/
  | nextGiven
  /-- Makes clauses active. -/
  | activate (ids : List ClauseId)
  /-- Takes clauses out everywhere. -/
  | retract (ids : List ClauseId)

/-- What a call to a store asks to be made or found. -/
def StoreCall.input? : StoreCall → Option ClauseInput
  | .create input => some input
  | _ => none

/-- What a call asks to be made or found, itself or by the calls of an expert. -/
def SearchCall.inputs : SearchCall → List ClauseInput
  | .create input => [input]
  | .addExpert expert => expert.calls.filterMap StoreCall.input?
  | _ => []

/-- What can happen to waiting clauses. -/
inductive PassiveEvent where
  /-- Clauses begin to wait, unless they do already. -/
  | added (ids : List ClauseId)
  /-- A clause is given. -/
  | given (id : ClauseId)
  /-- Clauses are removed. -/
  | removed (ids : List ClauseId)
deriving DecidableEq, Repr

namespace PassiveEvent

/-- The waiting clauses after an event. -/
def apply (live : List ClauseId) : PassiveEvent → List ClauseId
  | .added ids => insertAll live ids
  | .given id => live.erase id
  | .removed ids => live.diff ids

/-- The clauses that wait after some events when none was waiting before. -/
def waiting (events : List PassiveEvent) : List ClauseId :=
  events.foldl apply []

/-- Whether a clause is given or removed. -/
def Takes (id : ClauseId) : PassiveEvent → Prop
  | .added _ => False
  | .given other => other = id
  | .removed ids => id ∈ ids

end PassiveEvent

namespace ProofState

/-- Performs a call of a search and tells what happens to waiting clauses. -/
def perform (state : ProofState) : SearchCall → Except Fault (ProofState × List PassiveEvent)
  | .create input =>
    let (store, made) := state.store.create input
    made.map fun _ => ({ state with store }, [])
  | .addPassive ids =>
    let (passive, added) := state.passive.add state.store ids
    added.map fun _ => ({ state with passive }, [.added ids])
  | .addExpert expert => do
    let (state, ids) ← state.addExpert expert
    .ok (state, [.added ids])
  | .nextGiven =>
    let (state, given) := state.nextGiven
    .ok (state, given.toList.map .given)
  | .activate ids => do
    let state ← state.activate ids
    .ok (state, [])
  | .retract ids => do
    let state ← state.retract ids
    .ok (state, [.removed ids])

/-- Performs calls one after the other and collects what happens to waiting clauses. -/
def performAll (state : ProofState) : List SearchCall → Except Fault (ProofState × List PassiveEvent)
  | [] => .ok (state, [])
  | call :: calls => do
    let (state, events) ← state.perform call
    let (state, later) ← state.performAll calls
    .ok (state, events ++ later)

end ProofState

/-! ## Events -/

namespace PassiveEvent

variable {events : List PassiveEvent} {live : List ClauseId} {id : ClauseId}

theorem mem_apply_or_taken (event : PassiveEvent) (hid : id ∈ live) :
    id ∈ event.apply live ∨ event.Takes id := by
  cases event with
  | added ids => exact Or.inl (mem_insertAll.2 (Or.inl hid))
  | given other =>
    by_cases heq : other = id
    · exact Or.inr heq
    · exact Or.inl ((List.mem_erase_of_ne (Ne.symm heq)).2 hid)
  | removed ids =>
    by_cases hmem : id ∈ ids
    · exact Or.inr hmem
    · exact Or.inl (List.mem_diff_of_mem hid hmem)

/-- A clause that waits does so until it is given or removed. -/
theorem mem_foldl_apply_or_taken (hid : id ∈ live) :
    id ∈ events.foldl apply live ∨ ∃ event ∈ events, event.Takes id := by
  induction events generalizing live with
  | nil => exact Or.inl hid
  | cons event events ih =>
    rcases mem_apply_or_taken event hid with hlive | htaken
    · exact (ih hlive).imp_right fun ⟨other, hother, htaken⟩ =>
        ⟨other, List.mem_cons_of_mem event hother, htaken⟩
    · exact Or.inr ⟨event, List.mem_cons_self, htaken⟩

/-- A clause that was added still waits, or it was given or removed afterwards. -/
theorem mem_waiting_or_taken {before after : List PassiveEvent} {ids : List ClauseId} (hid : id ∈ ids) :
    id ∈ waiting (before ++ .added ids :: after) ∨ ∃ event ∈ after, event.Takes id := by
  rw [waiting, List.foldl_append, List.foldl_cons]
  exact mem_foldl_apply_or_taken (mem_insertAll.2 (Or.inr hid))

end PassiveEvent

/-! ## Clauses that are too long -/

/-- Whether a clause has too many literals to be made. -/
def ClauseInput.isOversized (input : ClauseInput) : Bool :=
  LiteralSet.capacity < input.literals.length

/-- An instance has as many literals as the clause. -/
theorem length_instantiateLiterals (σ : Substitution) (scope : Nat) (ρ : Renaming)
    (literals : List Literal) :
    (instantiateLiterals σ scope ρ literals).1.length = literals.length := by
  induction literals generalizing ρ with
  | nil => rfl
  | cons lit literals ih =>
    rw [instantiateLiterals]
    exact congrArg (· + 1) (ih _)

namespace ClauseStore

/-- A store is incomplete once it was asked for a clause that is too long. -/
theorem incomplete_create (store : ClauseStore) (input : ClauseInput) :
    (store.create input).1.incomplete = (store.incomplete || input.isOversized) := by
  have houtcome := store.create_outcome input
  generalize (store.create input).1 = later at houtcome ⊢
  generalize (store.create input).2 = result at houtcome
  rw [ClauseInput.isOversized]
  cases houtcome with
  | oversized long => simp [long]
  | shared short | mismatched short | refused short | unlinked short | made short =>
    simp [Nat.not_lt.2 short]

theorem incomplete_new (ordering : TermOrder) (selector : Selector) :
    (new ordering selector).incomplete = false :=
  (bare ordering selector).incomplete_create _

/-- A request that is not too long leaves a store as complete as it was. -/
theorem incomplete_create_of_short (store : ClauseStore) {input : ClauseInput}
    (short : input.literals.length ≤ LiteralSet.capacity) :
    (store.create input).1.incomplete = store.incomplete := by
  rw [incomplete_create, ClauseInput.isOversized, decide_eq_false (Nat.not_lt.2 short), Bool.or_false]

theorem WellFormed.incomplete_applySubstitution {store : ClauseStore} (h : store.WellFormed)
    (id : ClauseId) (σ : Substitution) (scope : Nat) :
    (store.applySubstitution id σ scope).1.incomplete = store.incomplete := by
  have hcreate : ∀ {clause later result}, store.get? id = some clause →
      store.create (clause.asInstance id σ scope) = (later, result) →
        later.incomplete = store.incomplete := by
    intro clause later result found created
    have hshort : (clause.asInstance id σ scope).literals.length ≤ LiteralSet.capacity := by
      rw [Clause.asInstance, length_instantiateLiterals]
      exact (h.clauses id clause found).short
    have hincomplete := store.incomplete_create_of_short hshort
    rwa [created] at hincomplete
  have houtcome := store.applySubstitution_outcome id σ scope
  generalize (store.applySubstitution id σ scope).1 = later at houtcome ⊢
  generalize (store.applySubstitution id σ scope).2 = result at houtcome
  cases houtcome with
  | unknown => rfl
  | stopped found created => exact hcreate found created
  | same found created => exact hcreate found created
  | other found created =>
    -- inheriting descendants leaves the rest of the store alone
    have hlater := hcreate found created
    exact hlater

theorem WellFormed.incomplete_rederive {store : ClauseStore} (h : store.WellFormed) (id : ClauseId) :
    (store.rederive id).1.incomplete = store.incomplete := by
  have houtcome := store.rederive_outcome id
  generalize (store.rederive id).1 = later at houtcome ⊢
  generalize (store.rederive id).2 = result at houtcome
  cases houtcome with
  | unknown => rfl
  | current => rfl
  | again found => exact store.incomplete_create_of_short (h.clauses id _ found).short

theorem incomplete_nextEpoch (store : ClauseStore) :
    store.nextEpoch.1.incomplete = store.incomplete := by
  obtain ⟨epoch, -, heq⟩ := store.exists_nextEpoch_eq
  rw [heq]

/-- Only a creation can ask for a clause that is too long: stored clauses are short enough, and so are their
instances. -/
theorem WellFormed.incomplete_perform {store : ClauseStore} (h : store.WellFormed) (call : StoreCall) :
    (store.perform call).1.incomplete =
      (store.incomplete || call.input?.any ClauseInput.isOversized) := by
  cases call with
  | create input => exact store.incomplete_create input
  | applySubstitution id σ scope =>
    exact (h.incomplete_applySubstitution id σ scope).trans (Bool.or_false _).symm
  | rederive id => exact (h.incomplete_rederive id).trans (Bool.or_false _).symm
  | setOrdering ordering | setSelector selector =>
    exact (incomplete_nextEpoch _).trans (Bool.or_false _).symm

/-- A run makes a store incomplete exactly when it asks for a clause that is too long. -/
theorem WellFormed.incomplete_performAll {store : ClauseStore} (h : store.WellFormed)
    (calls : List StoreCall) :
    (store.performAll calls).incomplete =
      (store.incomplete || (calls.filterMap StoreCall.input?).any ClauseInput.isOversized) := by
  induction calls generalizing store with
  | nil => exact (Bool.or_false _).symm
  | cons call calls ih =>
    rw [performAll, ih (h.perform call), h.incomplete_perform call, Bool.or_assoc]
    cases call <;> rfl

/-- Calls none of which stops with a fault are a run. -/
theorem eq_performAll_of_performUntilFault {store later : ClauseStore} {calls : List StoreCall}
    (h : store.performUntilFault calls = (later, .ok ())) : later = store.performAll calls := by
  induction calls generalizing store with
  | nil =>
    cases h
    rfl
  | cons call calls ih =>
    rw [performUntilFault] at h
    split at h
    · cases h
    · next next heq =>
      rw [performAll, heq]
      exact ih h

end ClauseStore

/-! ## What happens to the passive set -/

namespace PassiveSet.Faithful

variable {store : ClauseStore} {passive later : PassiveSet}

theorem create (h : passive.Faithful store) (input : ClauseInput) :
    passive.Faithful (store.create input).1 :=
  h.of_extends (store.create_outcome input).extends ((store.create_outcome input).numbered h.numbered)

theorem of_storeCalls (h : passive.Faithful store) (calls : List StoreCall) :
    passive.Faithful (store.performAll calls) :=
  h.of_extends (store.extends_performAll calls) (h.numbered.performAll calls)

/-- Adding clauses makes them live and changes nothing else but entries. -/
theorem of_add_eq (h : passive.Faithful store) {ids : List ClauseId} {fresh : Nat}
    (hadd : passive.add store ids = (later, .ok fresh)) :
    later.Faithful store ∧
      later.withoutEntries = { passive.withoutEntries with live := insertAll passive.live ids } := by
  have houtcome := h.add_outcome ids
  rw [hadd] at houtcome
  cases houtcome with
  | added faithful same => exact ⟨faithful, (EagerPassive.add_eq_ok_iff.1 same).2⟩

/-- Removing clauses one after the other takes them from the live ones and changes nothing else. -/
theorem removeAll (h : passive.Faithful store) (ids : List ClauseId) :
    (ids.foldl (fun passive id => (passive.remove id).1) passive).Faithful store ∧
      (ids.foldl (fun passive id => (passive.remove id).1) passive).withoutEntries =
        { passive.withoutEntries with live := passive.live.diff ids } := by
  induction ids generalizing passive with
  | nil => exact ⟨h, rfl⟩
  | cons id ids ih =>
    rw [List.foldl_cons, List.diff_cons]
    exact ih (h.remove id)

/-- Handing out a clause leaves the queues as they are. -/
theorem queues_next (h : passive.Faithful store) :
    passive.next.1.withoutEntries.queues = passive.withoutEntries.queues := by
  have hqueues := EagerPassive.queues_next store passive.withoutEntries
  rwa [h.next_eq] at hqueues

/-- Nothing but the clause that is handed out stops waiting. -/
theorem live_next (h : passive.Faithful store) :
    passive.next.1.live =
      (passive.next.2.toList.map PassiveEvent.given).foldl PassiveEvent.apply passive.live := by
  have hlive : passive.next.1.live = (passive.withoutEntries.next store).1.live := by
    rw [h.next_eq]
    rfl
  have hgiven : passive.next.2 = (passive.withoutEntries.next store).2 := by rw [h.next_eq]
  rw [hlive, hgiven]
  rcases EagerPassive.next_cases store passive.withoutEntries with
    ⟨position, taken, slot, id, -, -, hnext⟩ | hnext
  · rw [hnext]
    rfl
  · rw [hnext]
    exact EagerPassive.live_pass _

end PassiveSet.Faithful

/-! ## What a call does -/

namespace ProofState

variable {state later : ProofState} {call : SearchCall} {calls : List SearchCall}
  {events : List PassiveEvent}

/-- Everything that a call can do to the store and to the passive set. -/
theorem perform_cases (h : state.perform call = .ok (later, events)) :
    (∃ input id, call = .create input ∧ state.store.create input = (later.store, .ok id) ∧
      later.passive = state.passive ∧ events = []) ∨
    (∃ ids fresh, call = .addPassive ids ∧ later.store = state.store ∧
      state.passive.add state.store ids = (later.passive, .ok fresh) ∧ events = [.added ids]) ∨
    (∃ expert fresh, call = .addExpert expert ∧ later.store = state.store.performAll expert.calls ∧
      state.passive.add later.store expert.ids = (later.passive, .ok fresh) ∧
      events = [.added expert.ids]) ∨
    (call = .nextGiven ∧ later = state.nextGiven.1 ∧
      events = state.nextGiven.2.toList.map .given) ∨
    (∃ ids, call = .activate ids ∧ later.store = state.store ∧ later.passive = state.passive ∧
      events = []) ∨
    (∃ ids, call = .retract ids ∧ later.store = state.store ∧
      later.passive = ids.foldl (fun passive id => (passive.remove id).1) state.passive ∧
      events = [.removed ids]) := by
  cases call with
  | create input =>
    rw [perform] at h
    generalize hmade : state.store.create input = result at h
    obtain ⟨store, id | id⟩ := result
    · cases h
    · cases h
      exact Or.inl ⟨input, id, rfl, hmade, rfl, rfl⟩
  | addPassive ids =>
    rw [perform] at h
    generalize hadd : state.passive.add state.store ids = result at h
    obtain ⟨passive, fault | fresh⟩ := result
    · cases h
    · cases h
      exact Or.inr (Or.inl ⟨ids, fresh, rfl, rfl, hadd, rfl⟩)
  | addExpert expert =>
    obtain ⟨⟨added, ids⟩, hexpert, hend⟩ := Fault.bind_eq_ok.1 h
    cases hend
    obtain ⟨⟨⟩, hasked, hadd⟩ := Fault.bind_eq_ok.1 hexpert
    obtain ⟨fresh, hfresh, hend⟩ := Fault.bind_eq_ok.1 hadd
    cases hend
    -- the clauses are added to the passive set with the store that the expert leaves
    refine Or.inr (Or.inr (Or.inl ⟨expert, fresh, rfl, ?_, ?_, rfl⟩))
    · exact ClauseStore.eq_performAll_of_performUntilFault (Prod.ext rfl hasked)
    · exact Prod.ext rfl hfresh
  | nextGiven =>
    cases h
    exact Or.inr (Or.inr (Or.inr (Or.inl ⟨rfl, rfl, rfl⟩)))
  | activate ids =>
    obtain ⟨_, hactivate, hend⟩ := Fault.bind_eq_ok.1 h
    cases hend
    obtain ⟨_, _, hrules⟩ := Fault.bind_eq_ok.1 hactivate
    obtain ⟨_, _, hend⟩ := Fault.bind_eq_ok.1 hrules
    cases hend
    exact Or.inr (Or.inr (Or.inr (Or.inr (Or.inl ⟨ids, rfl, rfl, rfl, rfl⟩))))
  | retract ids =>
    obtain ⟨_, hretract, hend⟩ := Fault.bind_eq_ok.1 h
    cases hend
    obtain ⟨_, _, hrules⟩ := Fault.bind_eq_ok.1 hretract
    obtain ⟨_, _, hend⟩ := Fault.bind_eq_ok.1 hrules
    cases hend
    exact Or.inr (Or.inr (Or.inr (Or.inr (Or.inr ⟨ids, rfl, rfl, rfl, rfl⟩))))

theorem perform_create {input : ClauseInput} {store : ClauseStore} {id : ClauseId}
    (h : state.store.create input = (store, .ok id)) :
    state.perform (.create input) = .ok ({ state with store }, []) := by
  rw [perform, h]
  rfl

/-- Giving a clause hands it out of the passive set, which may be cleaned afterwards. -/
theorem nextGiven_cases (state : ProofState) :
    state.nextGiven.1.store = state.store ∧ state.nextGiven.2 = state.passive.next.2 ∧
      (state.nextGiven.1.passive = state.passive.next.1 ∨
        state.nextGiven.1.passive = state.passive.next.1.clean.1) := by
  rw [nextGiven]
  split
  · next passive heq =>
    rw [heq]
    exact ⟨rfl, rfl, Or.inl rfl⟩
  · next passive id heq =>
    rw [heq]
    refine ⟨rfl, rfl, ?_⟩
    dsimp only
    split
    · exact Or.inr rfl
    · exact Or.inl rfl

/-- What a search keeps: its store is well formed, and its passive set is faithful and has the queues it
began with. -/
structure Kept (queues : List (ClauseQueue × Nat)) (state : ProofState) : Prop where
  /-- The parts of the store fit together. -/
  store : state.store.WellFormed
  /-- The queues are usable. -/
  faithful : state.passive.Faithful state.store
  /-- The queues are those of the beginning. -/
  queues_eq : state.passive.withoutEntries.queues = (EagerPassive.start queues).queues

variable {queues : List (ClauseQueue × Nat)}

/-- A call keeps the store well formed. -/
theorem wellFormed_perform (h : state.store.WellFormed)
    (hstep : state.perform call = .ok (later, events)) : later.store.WellFormed := by
  obtain ⟨input, id, -, hmade, -⟩ | ⟨ids, fresh, -, hstore, -⟩ | ⟨expert, fresh, -, hstore, -⟩ |
    ⟨-, rfl, -⟩ | ⟨ids, -, hstore, -⟩ | ⟨ids, -, hstore, -⟩ := perform_cases hstep
  · have hlater := (state.store.create_outcome input).wellFormed h
    rwa [hmade] at hlater
  · exact hstore ▸ h
  · exact hstore ▸ ClauseStore.wellFormed_performAll h expert.calls
  · exact state.nextGiven_cases.1 ▸ h
  · exact hstore ▸ h
  · exact hstore ▸ h

/-- A call keeps the passive set faithful, and the live clauses follow from what it reports. -/
theorem Kept.perform (h : Kept queues state) (hstep : state.perform call = .ok (later, events)) :
    Kept queues later ∧ later.passive.live = events.foldl PassiveEvent.apply state.passive.live := by
  have hwell := wellFormed_perform h.store hstep
  obtain ⟨input, id, rfl, hmade, hpassive, rfl⟩ | ⟨ids, fresh, rfl, hstore, hadd, rfl⟩ |
    ⟨expert, fresh, rfl, hstore, hadd, rfl⟩ | ⟨rfl, rfl, rfl⟩ |
    ⟨ids, rfl, hstore, hpassive, rfl⟩ | ⟨ids, rfl, hstore, hpassive, rfl⟩ := perform_cases hstep
  · have hlater := h.faithful.create input
    rw [hmade, ← hpassive] at hlater
    exact ⟨⟨hwell, hlater, hpassive ▸ h.queues_eq⟩, congrArg PassiveSet.live hpassive⟩
  · obtain ⟨hlater, hsame⟩ := h.faithful.of_add_eq hadd
    refine ⟨⟨hwell, hstore ▸ hlater, ?_⟩, congrArg EagerPassive.live hsame⟩
    rw [hsame]
    exact h.queues_eq
  · have hmore := h.faithful.of_storeCalls expert.calls
    rw [← hstore] at hmore
    obtain ⟨hlater, hsame⟩ := hmore.of_add_eq hadd
    refine ⟨⟨hwell, hlater, ?_⟩, congrArg EagerPassive.live hsame⟩
    rw [hsame]
    exact h.queues_eq
  · obtain ⟨hstore, hgiven, hpassive⟩ := state.nextGiven_cases
    rw [hgiven, ← h.faithful.live_next]
    have hqueues := h.faithful.queues_next.trans h.queues_eq
    rcases hpassive with hpassive | hpassive
    · exact ⟨⟨hwell, hpassive ▸ hstore ▸ h.faithful.next, hpassive ▸ hqueues⟩, congrArg _ hpassive⟩
    · -- cleaning afterwards drops entries only
      refine ⟨⟨hwell, hpassive ▸ hstore ▸ h.faithful.next.clean, ?_⟩, ?_⟩
      · rw [hpassive, PassiveSet.withoutEntries_clean]
        exact hqueues
      · rw [hpassive]
        rfl
  · exact ⟨⟨hwell, hpassive ▸ hstore ▸ h.faithful, hpassive ▸ h.queues_eq⟩,
      congrArg PassiveSet.live hpassive⟩
  · obtain ⟨hlater, hsame⟩ := h.faithful.removeAll ids
    rw [← hpassive] at hlater hsame
    refine ⟨⟨hwell, hstore ▸ hlater, ?_⟩, congrArg EagerPassive.live hsame⟩
    rw [hsame]
    exact h.queues_eq

/-- A call makes the store incomplete exactly when it asks for a clause that is too long. -/
theorem incomplete_perform (h : state.store.WellFormed)
    (hstep : state.perform call = .ok (later, events)) :
    later.store.incomplete =
      (state.store.incomplete || call.inputs.any ClauseInput.isOversized) := by
  obtain ⟨input, id, rfl, hmade, -, rfl⟩ | ⟨ids, fresh, rfl, hstore, -, rfl⟩ |
    ⟨expert, fresh, rfl, hstore, -, rfl⟩ | ⟨rfl, rfl, rfl⟩ |
    ⟨ids, rfl, hstore, -, rfl⟩ | ⟨ids, rfl, hstore, -, rfl⟩ := perform_cases hstep
  · have hcreate := state.store.incomplete_create input
    rw [hmade] at hcreate
    simpa [SearchCall.inputs] using hcreate
  · simp [hstore, SearchCall.inputs]
  · rw [hstore]
    exact h.incomplete_performAll expert.calls
  · simp [state.nextGiven_cases.1, SearchCall.inputs]
  · simp [hstore, SearchCall.inputs]
  · simp [hstore, SearchCall.inputs]

/-- What a whole search keeps and leads to. -/
theorem Kept.performAll (h : Kept queues state)
    (hrun : state.performAll calls = .ok (later, events)) :
    Kept queues later ∧ later.passive.live = events.foldl PassiveEvent.apply state.passive.live ∧
      later.store.incomplete =
        (state.store.incomplete || (calls.flatMap SearchCall.inputs).any ClauseInput.isOversized) := by
  induction calls generalizing state events with
  | nil =>
    cases hrun
    exact ⟨h, rfl, (Bool.or_false _).symm⟩
  | cons call calls ih =>
    obtain ⟨⟨next, now⟩, hnow, hafter⟩ := Fault.bind_eq_ok.1 hrun
    obtain ⟨⟨last, rest⟩, hrest, hend⟩ := Fault.bind_eq_ok.1 hafter
    cases hend
    obtain ⟨hnext, hlive⟩ := h.perform hnow
    obtain ⟨hlast, hlive', hincomplete⟩ := ih hnext hrest
    refine ⟨hlast, ?_, ?_⟩
    · rw [hlive', hlive, List.foldl_append]
    · rw [hincomplete, incomplete_perform h.store hnow, List.flatMap_cons, List.any_append, Bool.or_assoc]

end ProofState

/-! ## Configured queues -/

/-- What is computed for each member of a list belongs to a member, and each member has its own. -/
theorem exists_of_mapM_eq_ok {ε α β : Type} {f : α → Except ε β} {xs : List α} {ys : List β}
    (h : xs.mapM f = .ok ys) :
    (∀ y ∈ ys, ∃ x ∈ xs, f x = .ok y) ∧ ∀ x ∈ xs, ∃ y ∈ ys, f x = .ok y := by
  induction xs generalizing ys with
  | nil =>
    cases h
    exact ⟨nofun, nofun⟩
  | cons x xs ih =>
    rw [List.mapM_cons] at h
    cases hx : f x with
    | error e =>
      rw [hx] at h
      cases h
    | ok y =>
      cases hxs : xs.mapM f with
      | error e =>
        rw [hx, hxs] at h
        cases h
      | ok rest =>
        rw [hx, hxs] at h
        cases h
        obtain ⟨hfrom, hto⟩ := ih hxs
        simp only [List.forall_mem_cons, List.exists_mem_cons_iff]
        exact ⟨⟨Or.inl hx, fun z hz => Or.inr (hfrom z hz)⟩,
          ⟨Or.inl hx, fun z hz => Or.inr (hto z hz)⟩⟩

/-- A queue that is built is empty, gets turns and looks only at what is fixed in a clause. -/
theorem QueueSpec.build_eq_ok {spec : QueueSpec} {q : ClauseQueue × Nat} (h : spec.build = .ok q) :
    0 < q.2 ∧ q.1.items = [] ∧ q.1.Steady := by
  rw [build] at h
  split at h
  · cases h
  · next hcoefficient =>
    cases hnamed : ClauseQueue.named spec.name with
    | error e =>
      rw [hnamed] at h
      cases h
    | ok queue =>
      rw [hnamed] at h
      cases h
      refine ⟨Nat.pos_of_ne_zero hcoefficient, ?_, ClauseQueue.steady_of_named hnamed⟩
      rw [ClauseQueue.named] at hnamed
      split at hnamed
      · cases hnamed
        rfl
      · cases hnamed

namespace SearchConfig

variable {config : SearchConfig} {queues : List (ClauseQueue × Nat)}

theorem mapM_of_buildQueues (h : config.buildQueues = .ok queues) :
    config.specs.mapM QueueSpec.build = .ok queues := by
  rw [buildQueues, GivenClause.buildQueues] at h
  split at h
  · cases h
  · exact h

/-- The queues of a search are empty, get turns and look only at what is fixed in a clause. -/
theorem of_mem_buildQueues (h : config.buildQueues = .ok queues) {q : ClauseQueue × Nat}
    (hq : q ∈ queues) : 0 < q.2 ∧ q.1.items = [] ∧ q.1.Steady := by
  obtain ⟨spec, -, hspec⟩ := (exists_of_mapM_eq_ok (mapM_of_buildQueues h)).1 q hq
  exact QueueSpec.build_eq_ok hspec

/-- Every profile has a queue that accepts all clauses. -/
theorem exists_accepting_all_of_profile (h : config.buildQueues = .ok queues)
    (hprofile : config.queues = none) : ∃ q ∈ queues, q.1.accept = .all := by
  have hfifo : ⟨"fifo", 1⟩ ∈ config.specs := by
    rw [specs, hprofile, Option.getD_none]
    cases config.profile <;> simp [Profile.specs]
  obtain ⟨q, hq, hbuild⟩ := (exists_of_mapM_eq_ok (mapM_of_buildQueues h)).2 _ hfifo
  cases hbuild
  exact ⟨_, hq, rfl⟩

end SearchConfig

namespace ProofState

variable {config : SearchConfig} {symbols : Symbols} {start state : ProofState}
  {calls : List SearchCall} {events : List PassiveEvent}

/-- A search begins with nothing waiting and nothing dropped. -/
theorem new_eq_ok (h : new config symbols = .ok start) :
    ∃ queues, config.buildQueues = .ok queues ∧ Kept queues start ∧ start.passive.live = [] ∧
      start.store.incomplete = false := by
  cases hqueues : config.buildQueues with
  | error e =>
    rw [new, hqueues] at h
    cases h
  | ok queues =>
    have hgood : ∀ q ∈ queues, 0 < q.2 ∧ q.1.items = [] ∧ q.1.Steady :=
      fun q hq => SearchConfig.of_mem_buildQueues hqueues hq
    rw [new, hqueues] at h
    change (PassiveSet.new queues).bind _ = _ at h
    rw [PassiveSet.new_eq_ok fun q hq => (hgood q hq).1] at h
    cases h
    refine ⟨queues, rfl, ⟨ClauseStore.wellFormed_new _ _, ?_, ?_⟩, rfl, ClauseStore.incomplete_new _ _⟩
    · exact PassiveSet.faithful_new (fun q hq => (hgood q hq).1) (fun q hq => (hgood q hq).2.1)
        (fun q hq => (hgood q hq).2.2) (ClauseStore.numbered_new _ _)
    · rw [PassiveSet.withoutEntries_eq_start]

/-- A search ends with the verdict that its clauses are satisfiable exactly when every clause that still
waits is rejected by every queue and no clause was too long to be made. The clauses that wait are those
that were added and neither given nor removed since. Where a queue accepts all clauses, as one does in
every profile, none is left. -/
theorem exhausted_satisfiable_iff (hnew : new config symbols = .ok start)
    (hrun : start.performAll calls = .ok (state, events)) :
    ∃ queues, config.buildQueues = .ok queues ∧ state.passive.live = PassiveEvent.waiting events ∧
      (∀ before ids after, events = before ++ .added ids :: after → ∀ id ∈ ids,
        id ∈ state.passive.live ∨ ∃ event ∈ after, event.Takes id) ∧
      (state.nextGiven.2 = none ∧ state.nextGiven.1.verdict = .satisfiable ↔
        (∀ id ∈ state.passive.live, ∃ clause, state.store.get? id = some clause ∧
          ∀ q ∈ queues, q.1.accepts clause = false) ∧
        ∀ input ∈ calls.flatMap SearchCall.inputs, input.literals.length ≤ LiteralSet.capacity) ∧
      (config.queues = none ∨ (∃ q ∈ queues, q.1.accept = .all) →
        (state.nextGiven.2 = none ↔ state.passive.live = [])) := by
  obtain ⟨queues, hqueues, hstart, hempty, hcomplete⟩ := new_eq_ok hnew
  obtain ⟨hstate, hlive, hincomplete⟩ := hstart.performAll hrun
  rw [hempty] at hlive
  obtain ⟨hstore, hgiven, -⟩ := state.nextGiven_cases
  have hnone := hstate.faithful.next_eq_none_iff hstate.queues_eq
  rw [← hgiven] at hnone
  refine ⟨queues, hqueues, hlive, ?_, ?_, ?_⟩
  · rintro before ids after rfl id hid
    rw [hlive]
    exact PassiveEvent.mem_waiting_or_taken hid
  · have hverdict : state.nextGiven.1.verdict = .satisfiable ↔
        ∀ input ∈ calls.flatMap SearchCall.inputs, input.literals.length ≤ LiteralSet.capacity := by
      have hshort : (calls.flatMap SearchCall.inputs).any ClauseInput.isOversized = false ↔
          ∀ input ∈ calls.flatMap SearchCall.inputs,
            input.literals.length ≤ LiteralSet.capacity := by
        simp only [List.any_eq_false, ClauseInput.isOversized, decide_eq_true_iff, Nat.not_lt]
      rw [verdict, hstore, hincomplete, hcomplete, Bool.false_or, ← hshort]
      cases (calls.flatMap SearchCall.inputs).any ClauseInput.isOversized <;> simp
    rw [hnone, hverdict]
  · -- a queue that accepts all clauses rejects none that waits
    intro haccepts
    have hall : ∃ q ∈ queues, q.1.accept = .all :=
      haccepts.elim (SearchConfig.exists_accepting_all_of_profile hqueues) id
    obtain ⟨q, hq, haccept⟩ := hall
    rw [hnone, List.eq_nil_iff_forall_not_mem]
    constructor
    · intro hrejected id hid
      obtain ⟨clause, -, hclause⟩ := hrejected id hid
      have hfalse := hclause q hq
      rw [ClauseQueue.accepts, haccept] at hfalse
      cases hfalse
    · intro hnil id hid
      exact absurd hid (hnil id)

/-! ## A contradiction -/

/-- The clause `p(a)`. -/
def assertion : ClauseInput where
  literals := [.prop (.app ⟨0, 1⟩ [.const 0]) true]
  provenance := .input .axiomatic

/-- The clause `¬p(a)`, a goal. -/
def denial : ClauseInput where
  literals := [.prop (.app ⟨0, 1⟩ [.const 0]) false]
  provenance := .input .axiomatic

/-- The store of a new search with the clause `p(a)`. -/
def assertionStore : ClauseStore :=
  (((ClauseStore.bare (Kbo.ofSettings {} {}) (.preset .none)).createNew
    { literals := [.verum], provenance := (Provenance.input .axiomatic).persist } [.verum]).1.createNew
      assertion assertion.literals).1

/-- The store with both clauses. -/
def contradictionStore : ClauseStore :=
  (assertionStore.createNew denial denial.literals).1

theorem assertionStore_eq :
    assertionStore = ((SearchConfig.buildStore {} {}).createNew assertion assertion.literals).1 := by
  rw [SearchConfig.buildStore, ClauseStore.new_eq_createNew, assertionStore]

theorem create_assertion :
    (SearchConfig.buildStore {} {}).create assertion = (assertionStore, .ok 1) := by
  rw [SearchConfig.buildStore, ClauseStore.create_new_eq_createNew _ _ (by decide) (by decide)]
  exact Prod.ext rfl (by decide +kernel)

theorem create_denial : assertionStore.create denial = (contradictionStore, .ok 2) := by
  have hother : ∀ literals epoch, denial.literals ≠ literals →
      assertionStore.keyFor denial ≠ ⟨literals, epoch⟩ :=
    fun literals epoch hne heq => hne (congrArg ClauseKey.literals heq)
  have hunknown : assertionStore.table[assertionStore.keyFor denial]? = none := by
    nth_rewrite 1 [assertionStore_eq]
    rw [ClauseStore.getElem?_table_createNew (hother _ _ (by decide))]
    exact ClauseStore.getElem?_table_new (hother _ _ (by decide))
  rw [ClauseStore.create_eq_createNew (by decide) hunknown]
  exact Prod.ext rfl (by decide +kernel)

/-- What is seen of a search that makes both clauses can be computed from the store that holds them. -/
theorem exists_contradiction_run {passive : PassiveSet} {cleaning : CleanPolicy} {β : Type}
    (calls : List SearchCall) (observe : ProofState × List PassiveEvent → β) (seen : β)
    (hnew : new config {} = .ok { store := SearchConfig.buildStore {} {}, passive, cleaning })
    (hseen : (performAll { store := contradictionStore, passive, cleaning } calls).map observe =
      .ok seen) :
    ∃ start state events, new config {} = .ok start ∧
      start.performAll (.create assertion :: .create denial :: calls) = .ok (state, events) ∧
      observe (state, events) = seen := by
  cases hrun : performAll { store := contradictionStore, passive, cleaning } calls with
  | error fault =>
    rw [hrun] at hseen
    cases hseen
  | ok result =>
    rw [hrun] at hseen
    refine ⟨_, result.1, result.2, hnew, ?_, Except.ok.inj hseen⟩
    refine Fault.bind_eq_ok.2 ⟨_, perform_create create_assertion, ?_⟩
    refine Fault.bind_eq_ok.2 ⟨result, ?_, rfl⟩
    exact Fault.bind_eq_ok.2 ⟨_, perform_create create_denial, Fault.bind_eq_ok.2 ⟨_, hrun, rfl⟩⟩

/-- With the queues of the standard profile both clauses are given, and then none is left. -/
theorem exhausted_satisfiable_iff_standard :
    ∃ start state events, new {} {} = .ok start ∧
      start.performAll [.create assertion, .create denial, .addPassive [1, 2], .nextGiven, .nextGiven] =
        .ok (state, events) ∧
      state.passive.live = [] ∧ state.nextGiven.2 = none ∧
      state.nextGiven.1.verdict = .satisfiable := by
  obtain ⟨start, state, events, hnew, hrun, hevents⟩ :=
    exists_contradiction_run [.addPassive [1, 2], .nextGiven, .nextGiven] Prod.snd
      [.added [1, 2], .given 2, .given 1] (show new {} {} = _ from rfl) (by decide +kernel)
  obtain ⟨queues, -, hlive, -, hiff, -⟩ := exhausted_satisfiable_iff hnew hrun
  have hnil : state.passive.live = [] := by
    rw [hlive, show events = _ from hevents]
    decide
  refine ⟨start, state, events, hnew, hrun, hnil, hiff.2 ⟨?_, by decide⟩⟩
  rw [hnil]
  exact nofun

/-- Goals alone are given. -/
def goalsOnly : SearchConfig where
  queues := some [⟨"goals", 1⟩]

/-- The clauses `p(a)` and `¬p(a)` contradict each other. Where goals alone are given, `¬p(a)` is given
and `p(a)` goes on waiting, and yet the verdict is that the clauses are satisfiable. -/
theorem contradiction_unnoticed :
    ∃ start state events, new goalsOnly {} = .ok start ∧
      start.performAll [.create assertion, .create denial, .addPassive [1, 2], .nextGiven] =
        .ok (state, events) ∧
      state.nextGiven.2 = none ∧ state.nextGiven.1.verdict = .satisfiable ∧
      state.passive.live = [1] := by
  obtain ⟨start, state, events, hnew, hrun, hend⟩ :=
    exists_contradiction_run [.addPassive [1, 2], .nextGiven]
      (fun result => (result.1.nextGiven.2, result.1.nextGiven.1.verdict, result.1.passive.live))
      (none, .satisfiable, [1]) (show new goalsOnly {} = _ from rfl) (by decide +kernel)
  simp only [Prod.mk.injEq] at hend
  exact ⟨start, state, events, hnew, hrun, hend⟩

end ProofState

end GivenClause
