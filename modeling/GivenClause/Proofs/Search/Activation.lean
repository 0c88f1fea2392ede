import GivenClause.Proofs.Clause.StoreIntegrity
import GivenClause.Proofs.Search.IndexRuns
import GivenClause.Search.ProofState

/-! # Activation and retraction

Activating and retracting clauses keeps five indices and two sets in step: the active set with its term
indices and feature vectors, and the rewrite rules. What is stored depends on the ordering in force when a
clause is activated; what is taken out is what was remembered then, so retraction succeeds under any
ordering and leaves nothing behind.

* `ProofState.maintainAll` are runs, `ProofState.Maintained` is what they keep;
* `ProofState.HoldsOnly` bounds what all indices hold;
* `ProofState.activation_exact` for all runs. -/

namespace GivenClause

open InsertionOrder

/-! ## Faults of requests -/

theorem Literal.indexedSides_onlyOverflows (order : TermOrder) (lit : Literal) :
    OnlyOverflows (lit.indexedSides order) := by
  cases lit with
  | equation lhs rhs positive =>
    refine (order.compare_onlyOverflows lhs rhs).bind fun c => ?_
    cases c <;> exact .ok _
  | _ => exact .ok _

theorem placeLiterals_onlyOverflows (order : TermOrder) (id : ClauseId)
    (resolution paramodulation : LiteralSet) (literals : List (Literal × Nat)) :
    OnlyOverflows (placeLiterals order id resolution paramodulation literals) := by
  induction literals with
  | nil => exact .ok _
  | cons e literals ih =>
    exact (e.1.indexedSides_onlyOverflows order).bind fun indexed => ih.bind fun rest => .ok _

namespace Clause

theorem placements_onlyOverflows (clause : Clause) (order : TermOrder) :
    OnlyOverflows (clause.placements order) := by
  have hindexed : OnlyOverflows (clause.indexedLiterals order) :=
    (clause.eligibleForResolution_onlyOverflows order .empty 0).bind fun _ =>
      (clause.eligibleForParamodulation_onlyOverflows order .empty 0).bind fun _ => .ok _
  exact hindexed.bind fun sets => placeLiterals_onlyOverflows order _ sets.1 sets.2 _

theorem rewriteRules_onlyOverflows (clause : Clause) (order : TermOrder) :
    OnlyOverflows (clause.rewriteRules order) := by
  rw [rewriteRules]
  split
  · refine (order.compare_onlyOverflows _ _).bind fun c => ?_
    cases c <;> exact .ok _
  · exact .ok _

end Clause

theorem FeatureIndex.insert_onlyRefuses (index : FeatureIndex) (store : ClauseStore) (id : ClauseId) :
    OnlyRefuses (index.insert store id) := by
  rw [FeatureIndex.insert]
  split
  · exact .ok _
  · exact (store.get_onlyRefuses id).bind fun _ => .ok _

theorem ActiveSet.add_onlyRefuses (active : ActiveSet) (store : ClauseStore) (ids : List ClauseId) :
    OnlyRefuses (active.add store ids) := by
  induction ids generalizing active with
  | nil => exact .ok _
  | cons id ids ih =>
    rw [ActiveSet.add]
    split
    · exact ih active
    · have hclause : OnlyRefuses (active.addClause store id) :=
        (store.get_onlyRefuses id).bind fun clause =>
          (clause.placements_onlyOverflows _).onlyRefuses.bind fun _ =>
            (FeatureIndex.insert_onlyRefuses _ store id).bind fun _ => .ok _
      exact hclause.bind fun next => (ih next).bind fun _ => .ok _

theorem RewriteIndex.insertAll_onlyRefuses (index : RewriteIndex) (store : ClauseStore)
    (ids : List ClauseId) : OnlyRefuses (index.insertAll store ids) := by
  induction ids generalizing index with
  | nil => exact .ok _
  | cons id ids ih =>
    have hinsert : OnlyRefuses (index.insert store id) := by
      rw [RewriteIndex.insert]
      split
      · exact .ok _
      · refine (store.get_onlyRefuses id).bind fun clause => ?_
        refine (clause.rewriteRules_onlyOverflows _).onlyRefuses.bind fun rules => ?_
        split <;> exact .ok _
    exact hinsert.bind fun next => (ih next.1).bind fun _ => .ok _

/-! ## Whose entries the indices hold -/

/-- Placements of a literal name the clause that they are made for. -/
theorem entry_clause_of_mem_placeLiteral {id : ClauseId} {i : Nat} {lit : Literal}
    {indexed : List (Side × Term)} {resolvable rewriting : Bool} {p : Placement}
    (hp : p ∈ placeLiteral id i lit indexed resolvable rewriting) : p.entry.clause = id := by
  simp only [placeLiteral, placeSubterms, placeSide, List.mem_append, List.mem_ite_nil_right,
    List.mem_flatMap, List.mem_map] at hp
  rcases hp with (⟨-, _, -, _, -, rfl⟩ | ⟨-, _, -, rfl⟩) | ⟨_, -, _, -, rfl⟩
  · rfl
  · rfl
  · rfl

theorem entry_clause_of_mem_placeLiterals {order : TermOrder} {id : ClauseId}
    {resolution paramodulation : LiteralSet} {literals : List (Literal × Nat)}
    {placements : List Placement}
    (h : placeLiterals order id resolution paramodulation literals = .ok placements) {p : Placement}
    (hp : p ∈ placements) : p.entry.clause = id := by
  induction literals generalizing placements with
  | nil =>
    cases h
    cases hp
  | cons e literals ih =>
    obtain ⟨indexed, -, hmore⟩ := Fault.bind_eq_ok.1 h
    obtain ⟨rest, hrest, hend⟩ := Fault.bind_eq_ok.1 hmore
    cases hend
    rcases List.mem_append.1 hp with hp | hp
    · exact entry_clause_of_mem_placeLiteral hp
    · exact ih hrest hp

/-- What the term indices store for a clause names that clause. -/
theorem Clause.entry_clause_of_mem_placements {clause : Clause} {order : TermOrder}
    {placements : List Placement} (h : clause.placements order = .ok placements) {p : Placement}
    (hp : p ∈ placements) : p.entry.clause = clause.id := by
  obtain ⟨sets, -, hplace⟩ := Fault.bind_eq_ok.1 h
  exact entry_clause_of_mem_placeLiterals hplace hp

/-- A well-shaped trie that stores nothing is the empty one. -/
theorem Trie.WellShaped.eq_empty {κ α : Type} [LT κ] {trie : Trie κ α} (h : trie.WellShaped)
    (hnone : ∀ e, e ∉ trie.toList) : trie = Trie.empty := by
  cases hempty : trie.isEmpty with
  | false =>
    obtain ⟨e, he⟩ := h.exists_mem_toList hempty
    exact absurd he (hnone e)
  | true =>
    cases trie with
    | node values branches =>
      cases branches with
      | nil =>
        rw [Trie.isEmpty, Array.isEmpty_iff] at hempty
        rw [hempty]
        rfl
      | cons key child rest => cases hempty

namespace ProofState

/-! ## Runs -/

/-- Performs a call: adding activates, taking out retracts. A call to the store may stop with a fault and
leaves the store as it is then. -/
def maintain (state : ProofState) : ActiveCall → Except Fault ProofState
  | .store call => .ok { state with store := (state.store.perform call).1 }
  | .add ids => state.activate ids
  | .remove ids => state.retract ids

/-- Performs calls one after the other. -/
def maintainAll (state : ProofState) (calls : List ActiveCall) : Except Fault ProofState :=
  calls.foldlM maintain state

/-- What runs keep: the active clauses are the kept ones, all indices hold what is remembered for them, and
the rules are those of the unit equations among them. -/
structure Maintained (kept : List ClauseId) (state : ProofState) : Prop where
  /-- The parts of the store fit together. -/
  store : state.store.WellFormed
  /-- The indices of the active set hold what is remembered. -/
  indexed : state.active.Indexed
  /-- The active clauses are the kept ones. -/
  ids : state.active.ids = kept
  /-- What is remembered for a clause names that clause. -/
  owned : ∀ e ∈ state.active.clauses, ∀ p ∈ e.2, p.entry.clause = e.1
  /-- The rules are in step with the kept clauses, under whatever orderings they were made. -/
  rules : RuleState.Kept (fun _ => True) kept ⟨state.store, state.rules⟩

variable {kept : List ClauseId} {state later : ProofState}

/-- Activating clauses. -/
theorem Maintained.activate (h : Maintained kept state) {ids : List ClauseId}
    (hstep : state.activate ids = .ok later) : Maintained (insertAll kept ids) later := by
  obtain ⟨⟨active, added⟩, hadd, hrest⟩ := Fault.bind_eq_ok.1 hstep
  obtain ⟨⟨rules, count⟩, hinsert, hend⟩ := Fault.bind_eq_ok.1 hrest
  cases hend
  have hadded := h.indexed.add hadd
  refine ⟨h.store, hadded.indexed, ?_, fun e he p hp => ?_, h.rules.add hinsert⟩
  · rw [← h.ids]
    exact hadded.ids
  · rcases hadded.placed e he with he | ⟨clause, hget, hplaced⟩
    · exact h.owned e he p hp
    · exact (clause.entry_clause_of_mem_placements hplaced hp).trans (h.rules.numbered _ _ hget)

/-- Retracting clauses always succeeds, whatever the ordering is. -/
theorem Maintained.exists_retract (h : Maintained kept state) (ids : List ClauseId) :
    ∃ later, state.retract ids = .ok later ∧ Maintained (kept.filter (· ∉ ids)) later := by
  obtain ⟨active, removed, hremove, hreduced⟩ := h.indexed.exists_remove ids
  obtain ⟨rules, count, herase, hrules⟩ := h.rules.exists_remove ids
  refine ⟨_, Fault.bind_eq_ok.2 ⟨_, hremove, Fault.bind_eq_ok.2 ⟨_, herase, rfl⟩⟩, h.store,
    hreduced.indexed, ?_, fun e he => h.owned e ?_, hrules⟩
  · rw [← h.ids]
    exact hreduced.ids
  · rw [hreduced.clauses] at he
    exact List.mem_of_mem_filter he

/-- Every call keeps indices and rules in step with the kept clauses. -/
theorem Maintained.maintain (h : Maintained kept state) {call : ActiveCall}
    (hstep : state.maintain call = .ok later) : Maintained (call.keep kept) later := by
  cases call with
  | store storeCall =>
    cases hstep
    exact ⟨h.store.perform storeCall, h.indexed, h.ids, h.owned,
      h.rules.store storeCall fun _ _ => trivial⟩
  | add ids => exact h.activate hstep
  | remove ids =>
    obtain ⟨later', hlater, hmaintained⟩ := h.exists_retract ids
    obtain rfl : later' = later := Except.ok.inj (hlater.symm.trans hstep)
    exact hmaintained

/-- A call stops only where a clause is unknown or a weight does not fit. -/
theorem Maintained.maintain_onlyRefuses (h : Maintained kept state) (call : ActiveCall) :
    OnlyRefuses (state.maintain call) := by
  cases call with
  | store storeCall => exact .ok _
  | add ids =>
    exact (state.active.add_onlyRefuses state.store ids).bind fun _ =>
      (state.rules.insertAll_onlyRefuses state.store ids).bind fun _ => .ok _
  | remove ids =>
    obtain ⟨later, hlater, -⟩ := h.exists_retract ids
    rw [ProofState.maintain, hlater]
    exact .ok later

/-- Every run keeps indices and rules in step with the kept clauses. -/
theorem Maintained.maintainAll {calls : List ActiveCall} (h : Maintained kept state)
    (hrun : state.maintainAll calls = .ok later) :
    Maintained (calls.foldl ActiveCall.keep kept) later :=
  holds_of_foldlM (fun _ _ _ _ _ hs hstep => hs.maintain hstep) h hrun

/-- A run stops only where a clause is unknown or a weight does not fit. -/
theorem Maintained.maintainAll_onlyRefuses (h : Maintained kept state) (calls : List ActiveCall) :
    OnlyRefuses (state.maintainAll calls) := by
  intro fault hfault
  have hstep : ∀ call ∈ calls, ∀ known state later, Maintained known state →
      state.maintain call = .ok later → Maintained (call.keep known) later :=
    fun _ _ _ _ _ hs hcall => hs.maintain hcall
  exact fault_of_foldlM hstep (fun call _ _ _ fault hs => hs.maintain_onlyRefuses call fault) h hfault

/-- A new search maintains nothing. -/
theorem maintained_new {config : SearchConfig} {symbols : Symbols} {start : ProofState}
    (h : new config symbols = .ok start) : Maintained [] start := by
  rw [new] at h
  cases hqueues : config.buildQueues with
  | error e =>
    rw [hqueues] at h
    cases h
  | ok queues =>
    rw [hqueues] at h
    change (PassiveSet.new queues).bind _ = _ at h
    cases hpassive : PassiveSet.new queues with
    | error e =>
      rw [hpassive] at h
      cases h
    | ok passive =>
      rw [hpassive] at h
      cases h
      exact ⟨ClauseStore.wellFormed_new _ _, ActiveSet.indexed_empty, rfl, nofun,
        RuleState.kept_empty (ClauseStore.numbered_new _ _) trivial⟩

/-! ## What the indices hold -/

/-- All entries of all indices belong to clauses with a property. -/
structure HoldsOnly (P : ClauseId → Prop) (state : ProofState) : Prop where
  /-- The term indices. -/
  terms : ∀ index, ∀ e ∈ (state.active.tree index).contents, P e.2.clause
  /-- The trie of feature vectors. -/
  features : ∀ e ∈ state.active.subsumption.root.toList, P e.2
  /-- The list of feature vectors. -/
  vectors : ∀ e ∈ state.active.subsumption.vectors, P e.1
  /-- The rewrite rules. -/
  rules : ∀ e ∈ state.rules.tree.contents, P e.2.clause

theorem HoldsOnly.mono {P Q : ClauseId → Prop} (h : state.HoldsOnly P) (hPQ : ∀ id, P id → Q id) :
    state.HoldsOnly Q where
  terms index e he := hPQ _ (h.terms index e he)
  features e he := hPQ _ (h.features e he)
  vectors e he := hPQ _ (h.vectors e he)
  rules e he := hPQ _ (h.rules e he)

/-- All tries are the empty one. -/
structure HoldsNothing (state : ProofState) : Prop where
  /-- The term indices. -/
  terms : ∀ index, (state.active.tree index).root = Trie.empty
  /-- The trie of feature vectors. -/
  features : state.active.subsumption.root = Trie.empty
  /-- The rewrite rules. -/
  rules : state.rules.tree.root = Trie.empty

/-- All entries belong to kept clauses. -/
theorem Maintained.holdsOnly (h : Maintained kept state) : state.HoldsOnly (· ∈ kept) := by
  have hvectors : ∀ e ∈ state.active.subsumption.vectors, e.1 ∈ kept := by
    intro e he
    rw [← h.ids, ← h.indexed.featured]
    exact List.mem_map_of_mem he
  refine ⟨fun index e he => ?_, fun e he => ?_, hvectors, fun e he => ?_⟩
  · -- an entry was placed for some active clause, which it names
    obtain ⟨p, hp, rfl⟩ := List.mem_map.1 ((h.indexed.trees index).2.subset he)
    obtain ⟨d, hd, hpd⟩ := List.mem_flatMap.1 (List.mem_of_mem_filter hp)
    show p.entry.clause ∈ kept
    rw [h.owned d hd p hpd, ← h.ids]
    exact List.mem_map_of_mem hd
  · obtain ⟨d, hd, rfl⟩ := List.mem_map.1 (h.indexed.features.contents.subset he)
    exact hvectors d hd
  · have hentry := (state.rules.tree.entries_perm RewriteEntry.le).symm.subset he
    exact ((h.rules.mem_ids _).1 (h.rules.exists_of_mem_entries hentry).1).1

/-- Without kept clauses all tries are empty. -/
theorem Maintained.holdsNothing (h : Maintained [] state) : state.HoldsNothing := by
  have honly := h.holdsOnly
  refine ⟨fun index => ?_, ?_, ?_⟩
  · exact (h.indexed.trees index).1.wellShaped.eq_empty fun e he =>
      List.not_mem_nil (honly.terms index e he)
  · exact h.indexed.features.wellShaped.eq_empty fun e he => List.not_mem_nil (honly.features e he)
  · exact h.rules.sound.stores.sound.wellShaped.eq_empty fun e he =>
      List.not_mem_nil (honly.rules e he)

/-- Activation and retraction stay exact across exchanges of the ordering. For every run of a new search:

* it stops only where a requested clause is unknown or a weight does not fit, so an entry that should be
  taken out is never missing;
* a call to the store in between stops for these reasons, or because the numbers of clauses or of epochs have
  run out;
* the active clauses are those that were activated and not retracted since, and the rules are those of the
  unit equations among them;
* every entry of every index belongs to an active clause;
* any clauses can be retracted, whatever the ordering has become; then no index holds an entry of theirs,
  and when all active clauses were among them every trie is the empty one. -/
theorem activation_exact {config : SearchConfig} {symbols : Symbols} {start : ProofState}
    (hnew : new config symbols = .ok start) (calls : List ActiveCall) :
    (∀ fault, start.maintainAll calls = .error fault →
      fault = .weightOverflow ∨ ∃ size index, fault = .unknownClause size index) ∧
    ∀ state, start.maintainAll calls = .ok state →
      (∀ call, FaultsOnly state.store.StopsBy (state.store.perform call).2) ∧
      (∀ id, state.active.contains id = true ↔ id ∈ ActiveCall.keptAfter calls) ∧
      (∀ id, state.rules.contains id = true ↔
        state.active.contains id = true ∧ state.store.HasUnitEquation id) ∧
      state.HoldsOnly (state.active.contains · = true) ∧
      ∀ ids, ∃ later, state.retract ids = .ok later ∧
        later.HoldsOnly (fun id => state.active.contains id = true ∧ id ∉ ids) ∧
        ((∀ id, state.active.contains id = true → id ∈ ids) → later.HoldsNothing) := by
  have hstart := maintained_new hnew
  refine ⟨hstart.maintainAll_onlyRefuses calls, fun state hrun => ?_⟩
  have h : Maintained (ActiveCall.keptAfter calls) state := hstart.maintainAll hrun
  have hcontains : ∀ id, state.active.contains id = true ↔ id ∈ ActiveCall.keptAfter calls := by
    intro id
    rw [ActiveSet.contains_iff, h.ids]
  refine ⟨h.store.perform_stopsBy, hcontains, fun id => ?_, h.holdsOnly.mono fun id => (hcontains id).2,
    fun ids => ?_⟩
  · rw [RewriteIndex.contains_iff, hcontains]
    exact h.rules.mem_ids id
  · obtain ⟨later, hretract, hlater⟩ := h.exists_retract ids
    refine ⟨later, hretract, hlater.holdsOnly.mono fun id hid => ?_, fun hall => ?_⟩
    · obtain ⟨hkept, hid⟩ := List.mem_filter.1 hid
      exact ⟨(hcontains id).2 hkept, of_decide_eq_true hid⟩
    · have hnone : (ActiveCall.keptAfter calls).filter (· ∉ ids) = [] := by
        refine List.filter_eq_nil_iff.2 fun id hid => ?_
        simpa using hall id ((hcontains id).2 hid)
      rw [hnone] at hlater
      exact hlater.holdsNothing

/-- The equation `f(x) = g(x)`. -/
def turningRule : ClauseInput where
  literals := [.equation (.app ⟨0, 1⟩ [.var 0]) (.app ⟨1, 1⟩ [.var 0]) true]
  provenance := .input .axiomatic

/-- The store of a new search with the equation. -/
def turningStore : ClauseStore :=
  (((ClauseStore.bare (Kbo.ofSettings {} {}) (.preset .none)).createNew
    { literals := [.verum], provenance := (Provenance.input .axiomatic).persist } [.verum]).1.createNew
      turningRule turningRule.literals).1

theorem turningStore_eq : ((SearchConfig.buildStore {} {}).create turningRule).1 = turningStore := by
  rw [SearchConfig.buildStore, ClauseStore.create_new_eq_createNew _ _ (by decide) (by decide)]
  rfl

/-- An ordering in which `f` is heavier than `g`. -/
def heavyLeft : Kbo where
  weights := [(.function 0, 9)]

/-- The equation is activated while its right side is the greater one, and retracted after an exchange of
the ordering has made the left side greater. -/
theorem activation_exact_reordered :
    ∃ start state later, new {} {} = .ok start ∧
      start.maintainAll [.store (.create turningRule), .add [1], .store (.setOrdering heavyLeft)] =
        .ok state ∧
      start.store.ordering.compare (.app ⟨0, 1⟩ [.var 0]) (.app ⟨1, 1⟩ [.var 0]) = .ok .lt ∧
      state.store.ordering.compare (.app ⟨0, 1⟩ [.var 0]) (.app ⟨1, 1⟩ [.var 0]) = .ok .gt ∧
      (state.active.contains 1 = true ∧ state.rules.contains 1 = true) ∧
      state.retract [1] = .ok later ∧ later.HoldsNothing := by
  obtain ⟨start, hnew, hstore, hactive, hrules⟩ : ∃ start, new {} {} = .ok start ∧
      start.store = SearchConfig.buildStore {} {} ∧ start.active = .empty ∧ start.rules = .empty :=
    ⟨_, rfl, rfl, rfl, rfl⟩
  have hids : (ActiveSet.empty.add turningStore [1] >>= fun result => .ok result.1.ids) = .ok [1] := by
    decide +kernel
  obtain ⟨⟨active, added⟩, hadd, hids⟩ := Fault.bind_eq_ok.1 hids
  have hruled : (RewriteIndex.empty.insertAll turningStore [1] >>= fun result => .ok result.1.ids) =
      .ok [1] := by
    decide +kernel
  obtain ⟨⟨rules, count⟩, hinsert, -⟩ := Fault.bind_eq_ok.1 hruled
  have hrun : start.maintainAll [.store (.create turningRule), .add [1],
      .store (.setOrdering heavyLeft)] =
      .ok { start with store := (turningStore.setOrdering heavyLeft).1, active, rules } := by
    have hactivate : ProofState.activate { start with store := turningStore } [1] =
        .ok { start with store := turningStore, active, rules } := by
      rw [← hactive] at hadd
      rw [← hrules] at hinsert
      exact Fault.bind_eq_ok.2 ⟨_, hadd, Fault.bind_eq_ok.2 ⟨_, hinsert, rfl⟩⟩
    refine Fault.bind_eq_ok.2 ⟨{ start with store := turningStore }, ?_, ?_⟩
    · rw [← turningStore_eq, ← hstore]
      rfl
    · exact Fault.bind_eq_ok.2 ⟨_, hactivate, rfl⟩
  obtain ⟨-, hexact⟩ := activation_exact hnew
    [.store (.create turningRule), .add [1], .store (.setOrdering heavyLeft)]
  obtain ⟨-, hcontains, hunits, -, hretract⟩ := hexact _ hrun
  have hone : active.ids = [1] := Except.ok.inj hids
  have hall : ∀ id, active.contains id = true → id ∈ [1] := by
    intro id hid
    rw [← hone]
    exact ActiveSet.contains_iff.1 hid
  obtain ⟨later, hlater, -, hnothing⟩ := hretract [1]
  refine ⟨start, _, later, hnew, hrun, ?_, ?_, ⟨(hcontains 1).2 (by decide), ?_⟩, hlater,
    hnothing hall⟩
  · rw [hstore, SearchConfig.buildStore, ClauseStore.new_eq_createNew]
    decide +kernel
  · show Kbo.compare heavyLeft _ _ = _
    decide +kernel
  · refine (hunits 1).2 ⟨(hcontains 1).2 (by decide), ?_⟩
    exact ⟨_, _, _, rfl, rfl⟩

end ProofState

end GivenClause
