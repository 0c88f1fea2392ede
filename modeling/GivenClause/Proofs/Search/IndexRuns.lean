import GivenClause.Proofs.Retrieval.RewriteContents
import GivenClause.Proofs.Search.ActiveRuns

/-! # Runs of single indices

An index over a store changes like the active set: calls to the store are interleaved with clauses added
and taken out, and a run can be followed by the clauses that its calls keep. Whatever the calls are, the
rewrite index holds the unit equations among the kept clauses, and the feature index holds all of them.

* `ActiveCall.keptAfter` are the clauses that calls keep, `holds_of_foldlM` says how a run is followed;
* `RuleState.Kept` is the invariant of the rewrite index, `FeatureState.Kept` that of the feature index,
  and `RuleState.Kept.performAll` and `FeatureState.Kept.performAll` say that every run keeps them. -/

namespace GivenClause

open InsertionOrder

/-! ## Following a run -/

/-- A relation between what is known of the calls so far and the state, which every call keeps, holds at
the end of a run. -/
theorem holds_of_foldlM {σ τ β : Type} {perform : σ → β → Except Fault σ} {follow : τ → β → τ}
    {R : τ → σ → Prop} {calls : List β}
    (step : ∀ call ∈ calls, ∀ known state later, R known state → perform state call = .ok later →
      R (follow known call) later)
    {known : τ} {state later : σ} (h : R known state) (hrun : calls.foldlM perform state = .ok later) :
    R (calls.foldl follow known) later := by
  induction calls generalizing known state with
  | nil =>
    cases hrun
    exact h
  | cons call calls ih =>
    rw [List.foldlM_cons] at hrun
    obtain ⟨next, hcall, hrest⟩ := Fault.bind_eq_ok.1 hrun
    have hnext := step call List.mem_cons_self known state next h hcall
    exact ih (fun c hc => step c (List.mem_cons_of_mem call hc)) hnext hrest

/-- A property that every call keeps holds at the end of a run. -/
theorem kept_of_foldlM {σ β : Type} {perform : σ → β → Except Fault σ} {P : σ → Prop} {calls : List β}
    (step : ∀ call ∈ calls, ∀ state later, P state → perform state call = .ok later → P later)
    {state later : σ} (h : P state) (hrun : calls.foldlM perform state = .ok later) : P later :=
  @holds_of_foldlM σ Unit β perform (fun known _ => known) (fun _ => P) calls
    (fun call hcall _ => step call hcall) () state later h hrun

/-- A run that stops does so at a call, made in a state that is related to the calls before it. -/
theorem fault_of_foldlM {σ τ β : Type} {perform : σ → β → Except Fault σ} {follow : τ → β → τ}
    {R : τ → σ → Prop} {P : Fault → Prop} {calls : List β}
    (step : ∀ call ∈ calls, ∀ known state later, R known state → perform state call = .ok later →
      R (follow known call) later)
    (stop : ∀ call ∈ calls, ∀ known state fault, R known state → perform state call = .error fault →
      P fault)
    {known : τ} {state : σ} {fault : Fault} (h : R known state)
    (hrun : calls.foldlM perform state = .error fault) : P fault := by
  induction calls generalizing known state with
  | nil => cases hrun
  | cons call calls ih =>
    rw [List.foldlM_cons] at hrun
    cases hcall : perform state call with
    | error other =>
      rw [hcall] at hrun
      cases hrun
      exact stop call List.mem_cons_self known state _ h hcall
    | ok next =>
      rw [hcall] at hrun
      have hnext := step call List.mem_cons_self known state next h hcall
      exact ih (fun c hc => step c (List.mem_cons_of_mem call hc))
        (fun c hc => stop c (List.mem_cons_of_mem call hc)) hnext hrun

namespace ActiveCall

/-- What a call makes of the clauses that are kept. -/
def keep (kept : List ClauseId) : ActiveCall → List ClauseId
  | .store _ => kept
  | .add ids => insertAll kept ids
  | .remove ids => kept.filter (· ∉ ids)

/-- The clauses that calls keep: those that were added and not taken out since, in the order in which they
were added. -/
def keptAfter (calls : List ActiveCall) : List ClauseId :=
  calls.foldl keep []

end ActiveCall

/-- The ordering is the same after a call to the store, or the one that the call brought. -/
theorem ClauseStore.ordering_perform_cases (store : ClauseStore) (call : StoreCall) :
    (store.perform call).1.ordering = store.ordering ∨
      call = .setOrdering (store.perform call).1.ordering := by
  cases hcall : call.setsOrdering with
  | false => exact Or.inl (store.ordering_perform hcall)
  | true =>
    cases call with
    | setOrdering order =>
      obtain ⟨epoch, -, heq⟩ := exists_nextEpoch_eq { store with ordering := order }
      show _ ∨ StoreCall.setOrdering order = .setOrdering (nextEpoch _).1.ordering
      rw [heq]
      exact Or.inr rfl
    | _ => cases hcall

/-! ## The rewrite index -/

/-- A clause store and a rewrite index over it. -/
structure RuleState where
  /-- The store. -/
  store : ClauseStore
  /-- The rewrite rules. -/
  rules : RewriteIndex

namespace RuleState

/-- Performs a call. A call to the store may stop with a fault and leaves the store as it is then. -/
def perform (state : RuleState) : ActiveCall → Except Fault RuleState
  | .store call => .ok { state with store := (state.store.perform call).1 }
  | .add ids => do
    let (rules, _) ← state.rules.insertAll state.store ids
    .ok { state with rules }
  | .remove ids => do
    let (rules, _) ← state.rules.eraseAll ids
    .ok { state with rules }

/-- Performs calls one after the other. -/
def performAll (state : RuleState) (calls : List ActiveCall) : Except Fault RuleState :=
  calls.foldlM perform state

/-- What runs keep of a rewrite index: it holds the unit equations among the kept clauses, with the rules
that they give under an ordering of a given kind. -/
structure Kept (kind : TermOrder → Prop) (kept : List ClauseId) (state : RuleState) : Prop where
  /-- The ordering in force is of that kind. -/
  ordering : kind state.store.ordering
  /-- Clauses carry the numbers under which they are found. -/
  numbered : state.store.Numbered
  /-- The tree holds what is remembered. -/
  sound : state.rules.Sound
  /-- The kept clauses are in the store. -/
  known : ∀ id ∈ kept, ∃ clause, state.store.get? id = some clause
  /-- The index holds the unit equations among the kept clauses. -/
  mem_ids : ∀ id, id ∈ state.rules.ids ↔ id ∈ kept ∧ state.store.HasUnitEquation id
  /-- What is remembered for a clause is what it gives under some ordering of that kind. -/
  ruled : ∀ e ∈ state.rules.placed, ∃ order, kind order ∧ RewriteIndex.RuledIn state.store order e

variable {kind : TermOrder → Prop} {kept : List ClauseId} {state later : RuleState}

theorem kept_empty {store : ClauseStore} (hnumbered : store.Numbered) (hordering : kind store.ordering) :
    Kept kind [] ⟨store, .empty⟩ where
  ordering := hordering
  numbered := hnumbered
  sound := RewriteIndex.sound_empty
  known := nofun
  mem_ids _ := iff_of_false List.not_mem_nil fun h => List.not_mem_nil h.1
  ruled := nofun

/-- A call to the store keeps the index as it is; the store only grows. -/
theorem Kept.store (h : Kept kind kept state) (call : StoreCall)
    (hcall : ∀ order, call = .setOrdering order → kind order) :
    Kept kind kept { state with store := (state.store.perform call).1 } := by
  have hext := state.store.extends_perform call
  refine ⟨?_, h.numbered.perform call, h.sound, fun id hid => ?_, fun id => ?_, fun e he => ?_⟩
  · rcases state.store.ordering_perform_cases call with hsame | hset
    · show kind _
      rw [hsame]
      exact h.ordering
    · exact hcall _ hset
  · obtain ⟨clause, hget⟩ := h.known id hid
    obtain ⟨clause', hget', -⟩ := hext.continues id clause hget
    exact ⟨clause', hget'⟩
  · rw [h.mem_ids]
    refine and_congr_right fun hid => ?_
    obtain ⟨clause, hget⟩ := h.known id hid
    exact (hext.hasUnitEquation_iff hget).symm
  · obtain ⟨order, horder, hruled⟩ := h.ruled e he
    exact ⟨order, horder, hruled.extends hext⟩

/-- Adding clauses. -/
theorem Kept.add (h : Kept kind kept state) {ids : List ClauseId} {rules : RewriteIndex} {count : Nat}
    (hinsert : state.rules.insertAll state.store ids = .ok (rules, count)) :
    Kept kind (insertAll kept ids) { state with rules } := by
  have hadded := h.sound.insertAll hinsert
  refine ⟨h.ordering, h.numbered, hadded.sound, fun id hid => ?_, fun id => ?_, fun e he => ?_⟩
  · rcases mem_insertAll.1 hid with hid | hid
    · exact h.known id hid
    · rcases hadded.known id hid with hmem | hknown
      · exact h.known id ((h.mem_ids id).1 hmem).1
      · exact hknown
  · rw [hadded.mem_ids, h.mem_ids, mem_insertAll, ← or_and_right]
  · rcases hadded.ruled e he with he | hruled
    · exact h.ruled e he
    · exact ⟨_, h.ordering, hruled⟩

/-- Taking clauses out always succeeds. -/
theorem Kept.exists_remove (h : Kept kind kept state) (ids : List ClauseId) :
    ∃ rules count, state.rules.eraseAll ids = .ok (rules, count) ∧
      Kept kind (kept.filter (· ∉ ids)) { state with rules } := by
  obtain ⟨rules, count, herase, hreduced⟩ := h.sound.exists_eraseAll ids
  refine ⟨rules, count, herase, h.ordering, h.numbered, hreduced.sound, fun id hid => ?_, fun id => ?_,
    fun e he => ?_⟩
  · exact h.known id (List.mem_of_mem_filter hid)
  · show id ∈ rules.ids ↔ _
    rw [hreduced.ids, List.mem_filter, List.mem_filter, h.mem_ids, and_right_comm]
  · refine h.ruled e ?_
    rw [hreduced.placed] at he
    exact List.mem_of_mem_filter he

/-- Every call keeps the index in step with the kept clauses. -/
theorem Kept.perform (h : Kept kind kept state) {call : ActiveCall}
    (hcall : ∀ order, call = .store (.setOrdering order) → kind order)
    (hstep : state.perform call = .ok later) : Kept kind (call.keep kept) later := by
  cases call with
  | store storeCall =>
    cases hstep
    exact h.store storeCall fun order horder => hcall order (congrArg ActiveCall.store horder)
  | add ids =>
    obtain ⟨⟨rules, count⟩, hinsert, hend⟩ := Fault.bind_eq_ok.1 hstep
    cases hend
    exact h.add hinsert
  | remove ids =>
    obtain ⟨⟨rules, count⟩, herase, hend⟩ := Fault.bind_eq_ok.1 hstep
    cases hend
    obtain ⟨rules', count', herase', hkept⟩ := h.exists_remove ids
    rw [herase] at herase'
    cases herase'
    exact hkept

/-- Every run keeps the index in step with the kept clauses. -/
theorem Kept.performAll {calls : List ActiveCall} (h : Kept kind kept state)
    (hcalls : ∀ call ∈ calls, ∀ order, call = .store (.setOrdering order) → kind order)
    (hrun : state.performAll calls = .ok later) : Kept kind (calls.foldl ActiveCall.keep kept) later :=
  holds_of_foldlM (fun call hcall _ _ _ hs hstep => hs.perform (hcalls call hcall) hstep) h hrun

/-- What the tree holds is a rule that its clause gives. -/
theorem Kept.exists_of_mem_entries (h : Kept kind kept state) {e : List FlatKey × RewriteEntry}
    (he : e ∈ state.rules.tree.entries RewriteEntry.le) :
    e.2.clause ∈ state.rules.ids ∧ ∃ order clause lhs rhs rules, kind order ∧
      state.store.get? e.2.clause = some clause ∧ clause.literals = [.equation lhs rhs true] ∧
      e.1 = (e.2.side.pick lhs rhs).storedKeys ∧ clause.rewriteRules order = .ok rules ∧
      (e.2.side.pick lhs rhs, e.2) ∈ rules := by
  have hcontents := h.sound.stores.mem_iff.1 ((state.rules.tree.entries_perm _).subset he)
  obtain ⟨⟨t, entry⟩, hrecorded, rfl⟩ := List.mem_map.1 (Multiset.mem_coe.1 hcontents)
  obtain ⟨placed, hplaced, hrule⟩ := List.mem_flatMap.1 hrecorded
  obtain ⟨order, horder, clause, hget, hrules, hne⟩ := h.ruled placed hplaced
  obtain ⟨lhs, rhs, hunit⟩ := clause.exists_unit_of_rewriteRules hrules hne
  obtain ⟨hclause, rfl⟩ := clause.eq_of_mem_rewriteRules hrules hunit hrule
  -- the clause is stored under its own number
  have hid : entry.clause = placed.1 := hclause.trans (h.numbered _ _ hget)
  refine ⟨?_, order, clause, lhs, rhs, placed.2, horder, ?_, hunit, rfl, hrules, hrule⟩
  · show entry.clause ∈ state.rules.ids
    rw [hid]
    exact List.mem_map_of_mem hplaced
  · show state.store.get? entry.clause = some clause
    rw [hid]
    exact hget

end RuleState

/-! ## The feature index -/

/-- A clause store and a feature index over it. -/
structure FeatureState where
  /-- The store. -/
  store : ClauseStore
  /-- The feature vectors. -/
  index : FeatureIndex

namespace FeatureState

/-- Adds one clause. -/
def insert (state : FeatureState) (id : ClauseId) : Except Fault FeatureState := do
  let (index, _) ← state.index.insert state.store id
  .ok { state with index }

/-- Takes one clause out. -/
def erase (state : FeatureState) (id : ClauseId) : Except Fault FeatureState :=
  .ok { state with index := (state.index.erase id).1 }

/-- Performs a call, clause by clause. A call to the store may stop with a fault and leaves the store as it
is then. -/
def perform (state : FeatureState) : ActiveCall → Except Fault FeatureState
  | .store call => .ok { state with store := (state.store.perform call).1 }
  | .add ids => ids.foldlM insert state
  | .remove ids => ids.foldlM erase state

/-- Performs calls one after the other. -/
def performAll (state : FeatureState) (calls : List ActiveCall) : Except Fault FeatureState :=
  calls.foldlM perform state

/-- What runs keep of a feature index: it holds the kept clauses with their vectors. -/
structure Kept (kept : List ClauseId) (state : FeatureState) : Prop where
  /-- Trie and list agree. -/
  sound : state.index.Sound
  /-- The index holds the kept clauses. -/
  ids : state.index.vectors.map (·.1) = kept
  /-- Vectors are those of the clause in the store. -/
  featured : ∀ e ∈ state.index.vectors, ActiveSet.FeaturedIn state.store e

variable {kept : List ClauseId} {state later : FeatureState}

theorem kept_empty (store : ClauseStore) : Kept [] ⟨store, .empty⟩ :=
  ⟨FeatureIndex.sound_empty, rfl, nofun⟩

/-- Adding one clause. -/
theorem Kept.insert (h : Kept kept state) {id : ClauseId} (hinsert : state.insert id = .ok later) :
    Kept (insertNew kept id) later := by
  obtain ⟨⟨index, added⟩, hindex, hend⟩ := Fault.bind_eq_ok.1 hinsert
  cases hend
  rw [FeatureIndex.insert] at hindex
  split at hindex
  · next hcontains =>
    cases hindex
    have hid : id ∈ kept := h.ids ▸ FeatureIndex.contains_iff.1 hcontains
    rw [insertNew_of_mem hid]
    exact h
  · next hcontains =>
    obtain ⟨clause, hget, hend⟩ := Fault.bind_eq_ok.1 hindex
    cases hend
    have hid : id ∉ state.index.vectors.map (·.1) := fun hmem => hcontains (FeatureIndex.contains_iff.2 hmem)
    refine ⟨h.sound.insertLiterals hid _, ?_, fun e he => ?_⟩
    · rw [insertNew_of_not_mem (h.ids ▸ hid), ← h.ids]
      exact List.map_append
    · rcases List.mem_append.1 he with he | he
      · exact h.featured e he
      · rw [List.mem_singleton.1 he]
        exact ⟨clause, ClauseStore.get_eq_ok_iff.1 hget, rfl⟩

/-- Taking one clause out. -/
theorem Kept.erase (h : Kept kept state) {id : ClauseId} (herase : state.erase id = .ok later) :
    Kept (kept.filter (· ≠ id)) later := by
  cases herase
  have hvectors := state.index.vectors_erase id
  refine ⟨h.sound.erase id, ?_, fun e he => h.featured e ?_⟩
  · rw [hvectors, ← h.ids, List.filter_map]
    rfl
  · rw [hvectors] at he
    exact List.mem_of_mem_filter he

/-- Taking out one number after the other leaves those that are not among them. -/
theorem foldl_filter_ne (kept ids : List ClauseId) :
    ids.foldl (fun kept id => kept.filter (· ≠ id)) kept = kept.filter (· ∉ ids) := by
  induction ids generalizing kept with
  | nil => exact (List.filter_eq_self.2 fun _ _ => by simp).symm
  | cons id ids ih =>
    rw [List.foldl_cons, ih, List.filter_filter]
    refine List.filter_congr fun other _ => ?_
    by_cases heq : other = id <;> simp [heq]

/-- Every call keeps the index in step with the kept clauses. -/
theorem Kept.perform (h : Kept kept state) {call : ActiveCall} (hstep : state.perform call = .ok later) :
    Kept (call.keep kept) later := by
  cases call with
  | store storeCall =>
    cases hstep
    have hext := state.store.extends_perform storeCall
    exact ⟨h.sound, h.ids, fun e he => (h.featured e he).extends hext⟩
  | add ids => exact holds_of_foldlM (fun _ _ _ _ _ hs hinsert => hs.insert hinsert) h hstep
  | remove ids =>
    have hlater : Kept (ids.foldl (fun kept id => kept.filter (· ≠ id)) kept) later :=
      holds_of_foldlM (fun _ _ _ _ _ hs herase => hs.erase herase) h hstep
    rwa [foldl_filter_ne] at hlater

/-- Every run keeps the index in step with the kept clauses. -/
theorem Kept.performAll {calls : List ActiveCall} (h : Kept kept state)
    (hrun : state.performAll calls = .ok later) : Kept (calls.foldl ActiveCall.keep kept) later :=
  holds_of_foldlM (fun _ _ _ _ _ hs hstep => hs.perform hstep) h hrun

end FeatureState

end GivenClause
