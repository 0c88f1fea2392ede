import Mathlib.Data.List.Perm.Basic
import GivenClause.Proofs.Search.ActiveIndices

/-! # Runs of the active set

A run changes a clause store and an active set over it: calls to the store are interleaved with clauses
added and taken out. As long as the ordering is not exchanged, what is remembered for an active clause is
what its store would give for it now (`ActiveState.CoherentExcept`), so the indices can be rebuilt from the
numbers of the active clauses.

* `ActiveCall` and `ActiveState.performAll` are runs, `ActiveState.perform_cases` what one call does;
* `ActiveState.CoherentExcept.snapshot_eq`: the snapshot is a function of the set of active clauses;
* `ActiveState.snapshot_eq_rebuilt`: a rebuilt set has the same contents. -/

namespace GivenClause

open InsertionOrder

/-! ## Calls -/

/-- A clause store and an active set over it. -/
structure ActiveState where
  /-- The store. -/
  store : ClauseStore
  /-- The active set. -/
  active : ActiveSet

/-- A call that may change a store or the active set over it. -/
inductive ActiveCall where
  /-- A call to the store. -/
  | store (call : StoreCall)
  /-- Adds clauses. -/
  | add (ids : List ClauseId)
  /-- Takes clauses out. -/
  | remove (ids : List ClauseId)

namespace ActiveCall

/-- Whether a call exchanges the ordering. -/
def setsOrdering : ActiveCall → Bool
  | .store call => call.setsOrdering
  | _ => false

/-- The call to the store, if it is one. -/
def storeCall? : ActiveCall → Option StoreCall
  | .store call => some call
  | _ => none

end ActiveCall

namespace ActiveState

/-- Performs a call. A call to the store may stop with a fault and leaves the store as it is then. -/
def perform (state : ActiveState) : ActiveCall → Except Fault ActiveState
  | .store call => .ok { state with store := (state.store.perform call).1 }
  | .add ids => do
    let (active, _) ← state.active.add state.store ids
    .ok { state with active }
  | .remove ids => do
    let (active, _) ← state.active.remove ids
    .ok { state with active }

/-- Performs calls one after the other. -/
def performAll (state : ActiveState) : List ActiveCall → Except Fault ActiveState
  | [] => .ok state
  | call :: calls => do
    let state ← state.perform call
    state.performAll calls

/-- Everything that a call can do. -/
theorem perform_cases {state later : ActiveState} {call : ActiveCall}
    (h : state.perform call = .ok later) :
    (∃ storeCall, call = .store storeCall ∧
      later = { state with store := (state.store.perform storeCall).1 }) ∨
    (∃ ids active added, call = .add ids ∧ state.active.add state.store ids = .ok (active, added) ∧
      later = { state with active }) ∨
    (∃ ids active removed, call = .remove ids ∧ state.active.remove ids = .ok (active, removed) ∧
      later = { state with active }) := by
  cases call with
  | store storeCall =>
    cases h
    exact Or.inl ⟨storeCall, rfl, rfl⟩
  | add ids =>
    obtain ⟨⟨active, added⟩, hadd, hlater⟩ := Fault.bind_eq_ok.1 h
    cases hlater
    exact Or.inr (Or.inl ⟨ids, active, added, rfl, hadd, rfl⟩)
  | remove ids =>
    obtain ⟨⟨active, removed⟩, hremove, hlater⟩ := Fault.bind_eq_ok.1 h
    cases hlater
    exact Or.inr (Or.inr ⟨ids, active, removed, rfl, hremove, rfl⟩)

/-- A property that every call keeps holds at the end of a run. -/
theorem performAll_induction {motive : ActiveState → Prop} {calls : List ActiveCall}
    (step : ∀ call ∈ calls, ∀ state later, state.perform call = .ok later → motive state →
      motive later)
    {state later : ActiveState} (h : state.performAll calls = .ok later) (hstate : motive state) :
    motive later := by
  induction calls generalizing state with
  | nil =>
    cases h
    exact hstate
  | cons call calls ih =>
    obtain ⟨next, hcall, hrest⟩ := Fault.bind_eq_ok.1 h
    have hnext := step call List.mem_cons_self state next hcall hstate
    exact ih (fun c hc => step c (List.mem_cons_of_mem call hc)) hrest hnext

/-! ## What runs keep -/

/-- The indices hold what is remembered, and the feature vectors are those of the clauses. -/
structure Kept (state : ActiveState) : Prop where
  /-- The indices hold what is remembered. -/
  indexed : state.active.Indexed
  /-- Remembered feature vectors are those of the clause in the store. -/
  featured : ∀ e ∈ state.active.subsumption.vectors, ActiveSet.FeaturedIn state.store e

theorem kept_empty (store : ClauseStore) : Kept ⟨store, .empty⟩ :=
  ⟨ActiveSet.indexed_empty, nofun⟩

/-- Every call keeps the indices in step with what is remembered. -/
theorem Kept.perform {state later : ActiveState} {call : ActiveCall} (h : Kept state)
    (hstep : state.perform call = .ok later) : Kept later := by
  obtain ⟨storeCall, rfl, rfl⟩ | ⟨ids, active, added, rfl, hadd, rfl⟩ |
    ⟨ids, active, removed, rfl, hremove, rfl⟩ := perform_cases hstep
  · exact ⟨h.indexed, fun e he => (h.featured e he).extends (state.store.extends_perform storeCall)⟩
  · have hadded := h.indexed.add hadd
    exact ⟨hadded.indexed, fun e he => (hadded.featured e he).elim (h.featured e) id⟩
  · have hreduced := h.indexed.remove hremove
    refine ⟨hreduced.indexed, fun e he => h.featured e ?_⟩
    rw [hreduced.vectors] at he
    exact List.mem_of_mem_filter he

/-- Every run keeps the indices in step with what is remembered. -/
theorem Kept.performAll {state later : ActiveState} {calls : List ActiveCall} (h : Kept state)
    (hrun : state.performAll calls = .ok later) : Kept later :=
  performAll_induction (motive := Kept) (fun _ _ _ _ hstep hs => hs.perform hstep) hrun h

/-- The store of a run is that of its calls to the store. -/
theorem store_performAll {state later : ActiveState} {calls : List ActiveCall}
    (h : state.performAll calls = .ok later) :
    later.store = state.store.performAll (calls.filterMap ActiveCall.storeCall?) := by
  induction calls generalizing state with
  | nil =>
    cases h
    rfl
  | cons call calls ih =>
    obtain ⟨next, hcall, hrest⟩ := Fault.bind_eq_ok.1 h
    have hlater := ih hrest
    obtain ⟨_, rfl, rfl⟩ | ⟨_, _, _, rfl, _, rfl⟩ | ⟨_, _, _, rfl, _, rfl⟩ := perform_cases hcall
    all_goals exact hlater

/-- What is remembered for an active clause is what the store gives for it now; the exempt entries
may be older. -/
structure CoherentExcept (exempt : List (ClauseId × List Placement)) (state : ActiveState) : Prop
    extends Kept state where
  /-- Remembered placements are those of the clause in the store. -/
  placed : ∀ e ∈ state.active.clauses, e ∈ exempt ∨ ActiveSet.PlacedIn state.store e

theorem coherentExcept_empty (exempt : List (ClauseId × List Placement)) (store : ClauseStore) :
    CoherentExcept exempt ⟨store, .empty⟩ :=
  ⟨kept_empty store, nofun⟩

/-- Every call but the exchange of the ordering keeps the active set coherent. -/
theorem CoherentExcept.perform {exempt : List (ClauseId × List Placement)} {state later : ActiveState}
    (h : CoherentExcept exempt state) (call : ActiveCall) (hcall : call.setsOrdering = false)
    (hstep : state.perform call = .ok later) : CoherentExcept exempt later := by
  refine ⟨h.toKept.perform hstep, ?_⟩
  obtain ⟨storeCall, rfl, rfl⟩ | ⟨ids, active, added, rfl, hadd, rfl⟩ |
    ⟨ids, active, removed, rfl, hremove, rfl⟩ := perform_cases hstep
  · -- the store only grows under the same ordering
    have hext := state.store.extends_perform storeCall
    have hordering := state.store.ordering_perform hcall
    exact fun e he => (h.placed e he).imp_right (·.extends hext hordering)
  · exact fun e he => ((h.indexed.add hadd).placed e he).elim (h.placed e) Or.inr
  · intro e he
    rw [(h.indexed.remove hremove).clauses] at he
    exact h.placed e (List.mem_of_mem_filter he)

/-- A run that does not exchange the ordering keeps the active set coherent. -/
theorem CoherentExcept.performAll {exempt : List (ClauseId × List Placement)}
    {state later : ActiveState} {calls : List ActiveCall} (h : CoherentExcept exempt state)
    (hcalls : ∀ call ∈ calls, call.setsOrdering = false)
    (hrun : state.performAll calls = .ok later) : CoherentExcept exempt later :=
  performAll_induction (motive := CoherentExcept exempt)
    (fun call hcall _ _ hstep hs => hs.perform call (hcalls call hcall) hstep) hrun h

/-! ## Contents as a function of the set of clauses -/

/-- Entries that are determined by their clause are the same for the same clauses. -/
theorem perm_of_determined {β : Type} {P : ClauseId × β → Prop}
    (hP : ∀ e e', P e → P e' → e.1 = e'.1 → e = e') {entries entries' : List (ClauseId × β)}
    (hnodup : (entries.map (·.1)).Nodup) (hnodup' : (entries'.map (·.1)).Nodup)
    (h : ∀ e ∈ entries, P e) (h' : ∀ e ∈ entries', P e)
    (hids : ∀ id, id ∈ entries.map (·.1) ↔ id ∈ entries'.map (·.1)) : entries.Perm entries' := by
  -- both lists have no repetitions, so membership is all there is to compare
  rw [List.perm_ext_iff_of_nodup hnodup.of_map hnodup'.of_map]
  intro e
  constructor
  · intro he
    obtain ⟨e', he', hid⟩ := List.mem_map.1 ((hids e.1).1 (List.mem_map_of_mem he))
    rwa [hP e e' (h e he) (h' e' he') hid.symm]
  · intro he
    obtain ⟨e', he', hid⟩ := List.mem_map.1 ((hids e.1).2 (List.mem_map_of_mem he))
    rwa [hP e e' (h' e he) (h e' he') hid.symm]

theorem placedIn_unique {store : ClauseStore} (e e' : ClauseId × List Placement)
    (h : ActiveSet.PlacedIn store e) (h' : ActiveSet.PlacedIn store e') (hid : e.1 = e'.1) :
    e = e' := by
  obtain ⟨clause, hget, hplaced⟩ := h
  obtain ⟨clause', hget', hplaced'⟩ := h'
  rw [hid, hget', Option.some.injEq] at hget
  rw [← hget, hplaced', Except.ok.injEq] at hplaced
  exact Prod.ext hid hplaced.symm

theorem featuredIn_unique {store : ClauseStore} (e e' : ClauseId × FeatureVector)
    (h : ActiveSet.FeaturedIn store e) (h' : ActiveSet.FeaturedIn store e') (hid : e.1 = e'.1) :
    e = e' := by
  obtain ⟨clause, hget, hvector⟩ := h
  obtain ⟨clause', hget', hvector'⟩ := h'
  rw [hid, hget', Option.some.injEq] at hget
  exact Prod.ext hid (by rw [hvector, hvector', hget])

/-- Without exemptions every active clause is placed as its store would place it now. -/
theorem CoherentExcept.placedIn {state : ActiveState} (h : CoherentExcept [] state)
    {e : ClauseId × List Placement} (he : e ∈ state.active.clauses) :
    ActiveSet.PlacedIn state.store e :=
  (h.placed e he).resolve_left List.not_mem_nil

/-- Coherent states over the same store, or a store and a later one, with the same clauses. -/
theorem CoherentExcept.perm {state state' : ActiveState} (h : CoherentExcept [] state)
    (h' : CoherentExcept [] state') (hext : state.store.Extends state'.store)
    (hordering : state'.store.ordering = state.store.ordering)
    (hids : ∀ id, id ∈ state.active.ids ↔ id ∈ state'.active.ids) :
    state.active.clauses.Perm state'.active.clauses ∧
      state.active.subsumption.vectors.Perm state'.active.subsumption.vectors := by
  -- both are compared with the later store
  have hplaced : ∀ e ∈ state.active.clauses, ActiveSet.PlacedIn state'.store e := fun e he =>
    (h.placedIn he).extends hext hordering
  have hplaced' : ∀ e ∈ state'.active.clauses, ActiveSet.PlacedIn state'.store e := fun e he =>
    h'.placedIn he
  refine ⟨perm_of_determined placedIn_unique h.indexed.nodup h'.indexed.nodup hplaced hplaced' hids,
    perm_of_determined featuredIn_unique h.indexed.features.nodup h'.indexed.features.nodup
      (fun e he => (h.featured e he).extends hext) h'.featured ?_⟩
  rw [h.indexed.featured, h'.indexed.featured]
  exact hids

/-- A coherent active set can be indexed from scratch. -/
theorem CoherentExcept.exists_rebuilt {state : ActiveState} (h : CoherentExcept [] state) :
    ∃ fresh, state.active.rebuilt state.store = .ok fresh ∧
      CoherentExcept [] { state with active := fresh } ∧
      ∀ id, id ∈ fresh.ids ↔ id ∈ state.active.ids := by
  have hplaced : ∀ id ∈ state.active.ids, id ∉ ActiveSet.empty.ids →
      ∃ placements, ActiveSet.PlacedIn state.store (id, placements) := by
    intro id hid _
    obtain ⟨e, he, rfl⟩ := List.mem_map.1 hid
    exact ⟨e.2, h.placedIn he⟩
  obtain ⟨fresh, added, hadd⟩ := ActiveSet.indexed_empty.exists_add state.active.ids hplaced
  -- indexing from scratch is one call on an empty active set
  have hcoherent : CoherentExcept [] { state with active := fresh } := by
    refine (coherentExcept_empty [] state.store).perform (.add state.active.ids) rfl ?_
    exact Fault.bind_eq_ok.2 ⟨(fresh, added), hadd, rfl⟩
  refine ⟨fresh, Fault.bind_eq_ok.2 ⟨(fresh, added), hadd, rfl⟩, hcoherent, ?_⟩
  intro id
  rw [(ActiveSet.indexed_empty.add hadd).ids, mem_insertAll]
  exact or_iff_right List.not_mem_nil

end ActiveState

/-- What the term indices store for a clause of the store. -/
def ClauseStore.placementsOf (store : ClauseStore) (id : ClauseId) : List Placement :=
  match store.get? id with
  | some clause => (clause.placements store.ordering).toOption.getD []
  | none => []

/-- What the feature index stores for a clause of the store. -/
def ClauseStore.featuresOf (store : ClauseStore) (id : ClauseId) : List (ClauseId × FeatureVector) :=
  match store.get? id with
  | some clause => [(id, .of clause.literals)]
  | none => []

namespace ActiveState

/-- The contents of the indices clause by clause. -/
theorem CoherentExcept.contents {state : ActiveState} (h : CoherentExcept [] state) :
    (∀ index, ((state.active.tree index).entries TermEntry.le).Perm
      (placedAt index (state.active.ids.flatMap state.store.placementsOf))) ∧
    state.active.subsumption.entries.Perm (state.active.ids.flatMap state.store.featuresOf) := by
  constructor
  · intro index
    have hrecorded : state.active.recorded = state.active.ids.flatMap state.store.placementsOf := by
      rw [ActiveSet.recorded, ActiveSet.ids, List.flatMap_map]
      refine List.flatMap_congr fun e he => ?_
      obtain ⟨clause, hget, hplaced⟩ := h.placedIn he
      rw [ClauseStore.placementsOf, hget]
      dsimp only
      rw [hplaced]
      rfl
    rw [← hrecorded]
    exact (DiscriminationTree.entries_perm _ _).trans (h.indexed.trees index).2
  · have hvectors : state.active.subsumption.vectors =
        state.active.ids.flatMap state.store.featuresOf := by
      rw [← h.indexed.featured, List.flatMap_map]
      refine (List.flatMap_singleton' _).symm.trans (List.flatMap_congr fun e he => ?_)
      obtain ⟨clause, hget, hvector⟩ := h.featured e he
      rw [ClauseStore.featuresOf, hget]
      dsimp only
      rw [← hvector]
    rw [← hvectors]
    exact List.mergeSort_perm _ _

/-- Coherent states with the same clauses have the same snapshot and the same feature vectors. -/
theorem CoherentExcept.snapshot_eq {state state' : ActiveState} (h : CoherentExcept [] state)
    (h' : CoherentExcept [] state') (hext : state.store.Extends state'.store)
    (hordering : state'.store.ordering = state.store.ordering)
    (hids : ∀ id, id ∈ state.active.ids ↔ id ∈ state'.active.ids) :
    state.active.snapshot = state'.active.snapshot ∧
      state.active.subsumption.entries = state'.active.subsumption.entries := by
  obtain ⟨hclauses, hvectors⟩ := h.perm h' hext hordering hids
  exact ⟨h.indexed.snapshot_eq h'.indexed hclauses, h.indexed.features.entries_eq hvectors⟩

/-- Clauses that were added and taken out again leave no trace in the indices. -/
theorem CoherentExcept.remove_add {state : ActiveState} (h : CoherentExcept [] state)
    {ids added : List ClauseId} {active : ActiveSet} (hfresh : ∀ id ∈ ids, id ∉ state.active.ids)
    (hadd : state.active.add state.store ids = .ok (active, added)) :
    ∃ restored removed, active.remove ids = .ok (restored, removed) ∧
      restored.snapshot = state.active.snapshot ∧
      restored.subsumption.entries = state.active.subsumption.entries := by
  have hadded := h.indexed.add hadd
  obtain ⟨restored, removed, hremove, hreduced⟩ := hadded.indexed.exists_remove ids
  refine ⟨restored, removed, hremove, ?_⟩
  -- adding and taking out are two calls, and the clauses at the end are those of the beginning
  have hcoherent : CoherentExcept [] { state with active } :=
    h.perform (.add ids) rfl (Fault.bind_eq_ok.2 ⟨_, hadd, rfl⟩)
  have hcoherent' : CoherentExcept [] { state with active := restored } :=
    hcoherent.perform (.remove ids) rfl (Fault.bind_eq_ok.2 ⟨_, hremove, rfl⟩)
  refine hcoherent'.snapshot_eq h (.refl _) rfl ?_
  intro id
  show id ∈ restored.ids ↔ _
  rw [hreduced.ids, hadded.ids, List.mem_filter, mem_insertAll, decide_eq_true_iff]
  exact ⟨fun ⟨hmem, hid⟩ => hmem.resolve_right hid, fun hmem => ⟨Or.inl hmem, fun hid =>
    hfresh id hid hmem⟩⟩

/-- The ordering at the end of a run that does not exchange it. -/
theorem ordering_performAll {state later : ActiveState} {calls : List ActiveCall}
    (hcalls : ∀ call ∈ calls, call.setsOrdering = false)
    (h : state.performAll calls = .ok later) : later.store.ordering = state.store.ordering := by
  refine performAll_induction (motive := fun s => s.store.ordering = state.store.ordering) ?_ h rfl
  intro call hcall s next hstep hs
  obtain ⟨storeCall, rfl, rfl⟩ | ⟨_, _, _, rfl, _, rfl⟩ | ⟨_, _, _, rfl, _, rfl⟩ :=
    perform_cases hstep
  · exact (s.store.ordering_perform (hcalls _ hcall)).trans hs
  · exact hs
  · exact hs

/-- After every run that does not exchange the ordering, whatever clauses were added and taken out and in
whatever order, the indices are those of the active clauses and of nothing else:

* a set rebuilt from the active clauses has the same contents;
* each index holds what the store gives for the active clauses, clause by clause, and the trie of feature
  vectors agrees with their list;
* a run with the same calls to the store, or more of them, that ends with the same active clauses ends with
  the same contents;
* clauses can always be taken out, and taking out what was just added restores the contents. -/
theorem snapshot_eq_rebuilt (store : ClauseStore) (calls : List ActiveCall)
    (hcalls : ∀ call ∈ calls, call.setsOrdering = false) {state : ActiveState}
    (hrun : performAll ⟨store, .empty⟩ calls = .ok state) :
    (∃ fresh, state.active.rebuilt state.store = .ok fresh ∧
      fresh.snapshot = state.active.snapshot ∧
      fresh.subsumption.entries = state.active.subsumption.entries) ∧
    ((∀ index, ((state.active.tree index).entries TermEntry.le).Perm
        (placedAt index (state.active.ids.flatMap state.store.placementsOf))) ∧
      state.active.subsumption.entries.Perm (state.active.ids.flatMap state.store.featuresOf) ∧
      state.active.subsumption.root.toList.Perm
        (state.active.subsumption.entries.map fun e => (e.2.counts, e.1))) ∧
    (∀ calls' state', (∀ call ∈ calls', call.setsOrdering = false) →
      performAll ⟨store, .empty⟩ calls' = .ok state' →
      calls.filterMap ActiveCall.storeCall? <+: calls'.filterMap ActiveCall.storeCall? →
      (∀ id, id ∈ state.active.ids ↔ id ∈ state'.active.ids) →
      state.active.snapshot = state'.active.snapshot) ∧
    (∀ ids, ∃ active removed, state.active.remove ids = .ok (active, removed) ∧
      active.ids = state.active.ids.filter (· ∉ ids)) ∧
    (∀ ids active added, (∀ id ∈ ids, id ∉ state.active.ids) →
      state.active.add state.store ids = .ok (active, added) →
      ∃ restored removed, active.remove ids = .ok (restored, removed) ∧
        restored.snapshot = state.active.snapshot) := by
  have h : CoherentExcept [] state := (coherentExcept_empty [] store).performAll hcalls hrun
  refine ⟨?_, ⟨h.contents.1, h.contents.2, ?_⟩, ?_, ?_, ?_⟩
  · obtain ⟨fresh, hfresh, hcoherent, hids⟩ := h.exists_rebuilt
    exact ⟨fresh, hfresh, hcoherent.snapshot_eq h (.refl _) rfl hids⟩
  · exact h.indexed.features.contents.trans ((List.mergeSort_perm _ _).symm.map _)
  · intro calls' state' hcalls' hrun' hmore hids
    have h' : CoherentExcept [] state' := (coherentExcept_empty [] store).performAll hcalls' hrun'
    refine (h.snapshot_eq h' ?_ ?_ hids).1
    · -- the later calls to the store extend what the common ones left
      obtain ⟨further, hfurther⟩ := hmore
      rw [store_performAll hrun', store_performAll hrun, ← hfurther,
        ClauseStore.performAll_append]
      exact ClauseStore.extends_performAll _ further
    · rw [ordering_performAll hcalls' hrun', ordering_performAll hcalls hrun]
  · intro ids
    obtain ⟨active, removed, hremove, hreduced⟩ := h.indexed.exists_remove ids
    exact ⟨active, removed, hremove, hreduced.ids⟩
  · intro ids active added hfresh hadd
    obtain ⟨restored, removed, hremove, hsnapshot, -⟩ := h.remove_add hfresh hadd
    exact ⟨restored, removed, hremove, hsnapshot⟩

/-- A store with the rule `f(x) = a` and the goal `g(f(x), y) ≠ a`. -/
def ruleAndGoal : ClauseStore :=
  let rule : List Literal := [.equation (.app ⟨0, 1⟩ [.var 0]) (.const 0) true]
  let goal : List Literal :=
    [.equation (.app ⟨1, 2⟩ [.app ⟨0, 1⟩ [.var 0], .var 1]) (.const 0) false]
  let store := ((ClauseStore.bare (.kbo {}) (.preset .none)).createNew
    ⟨rule, .input .axiomatic, [], none⟩ rule).1
  (store.createNew ⟨goal, .input .negatedConjecture, [], none⟩ goal).1

/-- Both clauses are added, repeated and taken out in turn, with a change of selection in between; the
goal stays. -/
theorem snapshot_eq_rebuilt_ruleAndGoal :
    ∃ state, performAll ⟨ruleAndGoal, .empty⟩ [.add [1, 0, 1], .remove [1, 5],
        .store (.setSelector (.preset .allNegative)), .add [1], .remove [0, 0]] = .ok state ∧
      state.active.ids = [1] ∧
      ∃ fresh, state.active.rebuilt state.store = .ok fresh ∧
        fresh.snapshot = state.active.snapshot := by
  have hids : (performAll ⟨ruleAndGoal, .empty⟩ [.add [1, 0, 1], .remove [1, 5],
      .store (.setSelector (.preset .allNegative)), .add [1], .remove [0, 0]]).map
        (·.active.ids) = .ok [1] := by decide +kernel
  obtain ⟨state, hrun, hids⟩ := Fault.bind_eq_ok.1 hids
  obtain ⟨fresh, hfresh, hsnapshot, -⟩ := (snapshot_eq_rebuilt ruleAndGoal _ (by decide) hrun).1
  exact ⟨state, hrun, Except.ok.inj hids, fresh, hfresh, hsnapshot⟩

end ActiveState

end GivenClause
