import GivenClause.Proofs.Search.Activation
import GivenClause.Proofs.Search.SubsumptionFilter

/-! # Range queries of the feature index

A feature index keeps every clause twice, under its number and on the path of its counts in a trie. A range
query walks the trie and compares one count at each level, without looking at the list of numbers. After
every run the two agree, so a query gives the clauses whose vector is in range in all counts, and each of
them once.

* `passes_map_iff`: passing the tests level by level is comparing count by count;
* `FeatureIndex.Sound.filterPaths_perm` and `FeatureIndex.Sound.mem_filterPaths_iff`: what a query gives;
* `FeatureState.queries_exact` for all runs. -/

namespace GivenClause

/-- As many keys as bounds pass tests that are made from the bounds exactly when they are related to the
bounds one by one. -/
theorem passes_map_iff {κ β : Type} {test : β → κ → Bool} {keys : List κ} {bounds : List β}
    (hlength : keys.length = bounds.length) :
    passes (bounds.map test) keys = true ↔
      List.Forall₂ (fun key bound => test bound key = true) keys bounds := by
  refine ⟨fun h => ?_, passes_map⟩
  induction keys generalizing bounds with
  | nil =>
    rw [List.length_nil, eq_comm, List.length_eq_zero_iff] at hlength
    subst hlength
    exact .nil
  | cons key keys ih =>
    cases bounds with
    | nil => simp at hlength
    | cons bound bounds =>
      rw [List.map_cons, passes, Bool.and_eq_true] at h
      exact .cons h.1 (ih (by simpa using hlength) h.2)

/-- There is one count for each feature. -/
@[simp] theorem FeatureVector.length_counts_of (literals : List Literal) :
    (FeatureVector.of literals).counts.length = 14 := by
  simp [FeatureVector.of]

namespace FeatureIndex

variable {index : FeatureIndex} {id : ClauseId} {vector : FeatureVector}

/-- A range query gives the clauses whose counts pass the tests. -/
theorem Sound.filterPaths_perm (h : index.Sound) (tests : List (Nat → Bool)) :
    (index.root.filterPaths tests).Perm
      ((index.vectors.filter fun e => passes tests e.2.counts).map (·.1)) := by
  have hperm := (h.contents.filter fun e => passes tests e.1).map Prod.snd
  rwa [List.filter_map, List.map_map, ← Trie.filterPaths_eq] at hperm

/-- A range query gives no clause twice. -/
theorem Sound.nodup_filterPaths (h : index.Sound) (tests : List (Nat → Bool)) :
    (index.root.filterPaths tests).Nodup := by
  rw [(h.filterPaths_perm tests).nodup_iff]
  exact h.nodup.sublist (List.filter_sublist.map _)

/-- The vector of a clause is the one that it is listed with. -/
theorem Sound.vector?_eq_some_iff (h : index.Sound) :
    index.vector? id = some vector ↔ (id, vector) ∈ index.vectors :=
  lookup_eq_some_iff_mem h.nodup

/-- A query with one test for each count gives the clauses whose counts are in range one by one. -/
theorem Sound.mem_filterPaths_iff (h : index.Sound) {bounds : List Nat}
    (hlength : ∀ e ∈ index.vectors, e.2.counts.length = bounds.length) {test : Nat → Nat → Bool} :
    id ∈ index.root.filterPaths (bounds.map test) ↔ ∃ vector, index.vector? id = some vector ∧
      List.Forall₂ (fun count bound => test bound count = true) vector.counts bounds := by
  rw [(h.filterPaths_perm _).mem_iff, List.mem_map]
  constructor
  · rintro ⟨⟨_, vector⟩, he, rfl⟩
    obtain ⟨hmem, hpasses⟩ := List.mem_filter.1 he
    exact ⟨vector, h.vector?_eq_some_iff.2 hmem, (passes_map_iff (hlength _ hmem)).1 hpasses⟩
  · rintro ⟨vector, hvector, hrange⟩
    have hmem := h.vector?_eq_some_iff.1 hvector
    exact ⟨_, List.mem_filter.2 ⟨hmem, (passes_map_iff (hlength _ hmem)).2 hrange⟩, rfl⟩

/-- Taking a clause out tells whether it was there: the trie has every clause that is listed. -/
theorem Sound.erase_snd (h : index.Sound) (id : ClauseId) : (index.erase id).2 = index.contains id := by
  rw [FeatureIndex.erase, contains]
  split
  · next hnone => rw [hnone, Option.isSome_none]
  · next vector hvector =>
    have hstored : (vector.counts, id) ∈ index.root.toList :=
      h.contents.mem_iff.2 (List.mem_map.2 ⟨_, mem_of_vector? hvector, rfl⟩)
    obtain ⟨root, hroot⟩ := h.wellShaped.exists_erase? hstored
    simp [hroot, hvector]

/-- The clauses by number are listed in strictly ascending order. -/
theorem Sound.pairwise_entries (h : index.Sound) : index.entries.Pairwise fun a b => a.1 < b.1 := by
  have hperm : index.entries.Perm index.vectors := List.mergeSort_perm _ _
  have hnodup : (index.entries.map (·.1)).Nodup := (hperm.map _).nodup_iff.2 h.nodup
  have hsorted : index.entries.Pairwise fun a b => a.1 ≤ b.1 :=
    pairwise_mergeSort_number (·.1) index.vectors
  exact (hsorted.and (List.pairwise_map.1 hnodup)).imp fun hle => Nat.lt_of_le_of_ne hle.1 hle.2

end FeatureIndex

namespace FeatureState

variable {kept : List ClauseId} {state : FeatureState}

/-- The vector of a kept clause is that of its literals. -/
theorem Kept.vector?_eq_some_iff (h : Kept kept state) {id : ClauseId} {vector : FeatureVector} :
    state.index.vector? id = some vector ↔
      id ∈ kept ∧ ∃ clause, state.store.get? id = some clause ∧ vector = .of clause.literals := by
  rw [h.sound.vector?_eq_some_iff]
  constructor
  · intro hmem
    exact ⟨h.ids ▸ List.mem_map_of_mem hmem, h.featured _ hmem⟩
  · rintro ⟨hid, clause, hget, rfl⟩
    obtain ⟨⟨_, vector⟩, hmem, rfl⟩ := List.mem_map.1 (h.ids ▸ hid)
    obtain ⟨clause', hget', hvector⟩ := h.featured _ hmem
    rw [hget, Option.some.injEq] at hget'
    subst hget'
    rwa [← hvector]

/-- All vectors have the same number of counts. -/
theorem Kept.length_counts (h : Kept kept state) (literals : List Literal) :
    ∀ e ∈ state.index.vectors, e.2.counts.length = (FeatureVector.of literals).counts.length := by
  intro e he
  obtain ⟨clause, -, hvector⟩ := h.featured e he
  rw [hvector, FeatureVector.length_counts_of, FeatureVector.length_counts_of]

/-- **The feature index answers range queries exactly.** After every run:

* the index holds the clauses that were added and not taken out since, each with the vector of its literals,
  and counts them;
* its listing has each of them once, by number, and the trie stores exactly these, each on the path of its
  counts; branches are in order, none of them is empty, and nothing is left of the trie when no clause is;
* taking a clause out tells whether it was there;
* the possible subsumers of a clause are the clauses of the index whose vector is at most that of the clause
  in every count, the possibly subsumed are those whose vector is at least that, each of them once. -/
theorem queries_exact (store : ClauseStore) {calls : List ActiveCall} {state : FeatureState}
    (hrun : performAll ⟨store, .empty⟩ calls = .ok state) :
    ((∀ id, state.index.contains id = true ↔ id ∈ ActiveCall.keptAfter calls) ∧
      (∀ id vector, state.index.vector? id = some vector ↔ id ∈ ActiveCall.keptAfter calls ∧
        ∃ clause, state.store.get? id = some clause ∧ vector = .of clause.literals) ∧
      state.index.size = (ActiveCall.keptAfter calls).length ∧
      (ActiveCall.keptAfter calls).Nodup) ∧
    ((∀ id vector, (id, vector) ∈ state.index.entries ↔ state.index.vector? id = some vector) ∧
      (state.index.entries.Pairwise fun a b => a.1 < b.1) ∧
      state.index.root.toList.Perm (state.index.entries.map fun e => (e.2.counts, e.1)) ∧
      state.index.root.WellShaped ∧
      (ActiveCall.keptAfter calls = [] → state.index.root = .empty)) ∧
    (∀ id, (state.index.erase id).2 = state.index.contains id) ∧
    ∀ literals,
      ((state.index.subsumers literals).Nodup ∧
        ∀ id, id ∈ state.index.subsumers literals ↔ ∃ vector, state.index.vector? id = some vector ∧
          List.Forall₂ (· ≤ ·) vector.counts (FeatureVector.of literals).counts) ∧
      (state.index.subsumed literals).Nodup ∧
        ∀ id, id ∈ state.index.subsumed literals ↔ ∃ vector, state.index.vector? id = some vector ∧
          List.Forall₂ (· ≥ ·) vector.counts (FeatureVector.of literals).counts := by
  have h : Kept (ActiveCall.keptAfter calls) state := (kept_empty store).performAll hrun
  have hlisted : state.index.entries.Perm state.index.vectors := List.mergeSort_perm _ _
  refine ⟨⟨fun id => ?_, fun id vector => h.vector?_eq_some_iff, ?_, h.ids ▸ h.sound.nodup⟩,
    ⟨fun id vector => ?_, h.sound.pairwise_entries, ?_, h.sound.wellShaped, fun hnone => ?_⟩,
    h.sound.erase_snd, fun literals => ⟨⟨h.sound.nodup_filterPaths _, fun id => ?_⟩,
      h.sound.nodup_filterPaths _, fun id => ?_⟩⟩
  · rw [FeatureIndex.contains_iff, h.ids]
  · rw [← h.ids, List.length_map]
    rfl
  · rw [hlisted.mem_iff, h.sound.vector?_eq_some_iff]
  · exact h.sound.contents.trans (hlisted.symm.map _)
  · refine h.sound.wellShaped.eq_empty fun e he => ?_
    obtain ⟨d, hd, -⟩ := List.mem_map.1 (h.sound.contents.mem_iff.1 he)
    have hid : d.1 ∈ ActiveCall.keptAfter calls := h.ids ▸ List.mem_map_of_mem hd
    rw [hnone] at hid
    cases hid
  · rw [FeatureIndex.subsumers, h.sound.mem_filterPaths_iff (h.length_counts literals)]
    simp only [decide_eq_true_eq]
  · rw [FeatureIndex.subsumed, h.sound.mem_filterPaths_iff (h.length_counts literals)]
    simp only [decide_eq_true_eq, ge_iff_le]

/-- The rule and the goal are added in turn, repeated, taken out and added again. -/
def turningCalls : List ActiveCall :=
  [.add [1, 0, 1], .remove [0, 7, 0], .store (.setSelector (.preset .allNegative)), .add [0], .remove [1],
    .add [0, 1]]

/-- Of the rule `f(x) = a` and the goal `g(f(x), y) ≠ a` the query for `f(b) = a` gives the rule, and the
query for the empty clause gives both. -/
theorem queries_exact_ruleAndGoal :
    ∃ state, performAll ⟨ActiveState.ruleAndGoal, .empty⟩ turningCalls = .ok state ∧
      (∀ id, id ∈ state.index.subsumers [.equation (.app ⟨0, 1⟩ [.const 1]) (.const 0) true] ↔ id = 0) ∧
      ∀ id, id ∈ state.index.subsumed [] ↔ id = 0 ∨ id = 1 := by
  have hseen : (performAll ⟨ActiveState.ruleAndGoal, .empty⟩ turningCalls).map (fun state =>
      [0, 1].map state.index.vector?) =
      .ok [some ⟨[1, 0, 1, 0, 2, 0, 1, 1, 0, 0, 0, 0, 0, 0]⟩,
        some ⟨[0, 1, 0, 1, 0, 3, 0, 0, 0, 0, 1, 1, 0, 1]⟩] := by
    decide +kernel
  obtain ⟨state, hrun, hseen⟩ := Fault.bind_eq_ok.1 hseen
  obtain ⟨hrule, hgoal⟩ : state.index.vector? 0 = some ⟨[1, 0, 1, 0, 2, 0, 1, 1, 0, 0, 0, 0, 0, 0]⟩ ∧
      state.index.vector? 1 = some ⟨[0, 1, 0, 1, 0, 3, 0, 0, 0, 0, 1, 1, 0, 1]⟩ := by
    simpa using Except.ok.inj hseen
  obtain ⟨⟨-, hvector, -, -⟩, -, -, hqueries⟩ := queries_exact _ hrun
  have honly : ∀ id vector, state.index.vector? id = some vector → id = 0 ∨ id = 1 := by
    intro id vector hid
    have hkept := ((hvector id vector).1 hid).1
    rw [show ActiveCall.keptAfter turningCalls = [0, 1] by decide] at hkept
    simpa using hkept
  refine ⟨state, hrun, fun id => ((hqueries _).1.2 id).trans ⟨?_, ?_⟩,
    fun id => ((hqueries _).2.2 id).trans ⟨fun ⟨vector, hid, _⟩ => honly id vector hid, ?_⟩⟩
  · rintro ⟨vector, hid, hle⟩
    rcases honly id vector hid with rfl | rfl
    · rfl
    · -- the goal has a negative literal
      rw [hgoal, Option.some.injEq] at hid
      subst hid
      exact absurd hle (by decide +kernel)
  · rintro rfl
    exact ⟨_, hrule, by decide +kernel⟩
  · rintro (rfl | rfl)
    · exact ⟨_, hrule, by decide +kernel⟩
    · exact ⟨_, hgoal, by decide +kernel⟩

end FeatureState

end GivenClause
