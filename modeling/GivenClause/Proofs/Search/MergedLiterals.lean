import Mathlib.Data.List.Dedup
import GivenClause.Proofs.Clause.StoreIntegrity
import GivenClause.Proofs.Search.RangeQueries

/-! # Subsumption that merges literals

A clause subsumes another as a set of literals when all its instances, under one replacement of variables,
occur in the other clause; several literals may have the same instance there. Features count literals one by
one, so the filter knows nothing of literals that become the same: it finds a clause for everything that the
clause subsumes under a replacement exactly when that replacement keeps its literals apart.

* `SubsumesAsSet` is this subsumption, `SubsumesAsSet.subsumes` compares it with the one with multiplicities;
* `FeatureVector.length_le_of_counts_le`: a clause that passes the filter is not longer;
* `FeatureVector.counts_le_iff_nodup` and `FeatureState.merging_filtered`: when the filter can be trusted;
* `FeatureState.merged_subsumer_missed`: a clause that subsumes another and is not found. -/

namespace GivenClause

/-- The literals of a clause after variables were replaced. -/
def literalsUnder (θ : Nat → Term) (C : List Literal) : List Literal :=
  C.map (Literal.mapTerms (TermOver.bind θ))

/-- Subsumption of clauses as sets: after replacing variables, every literal of the first clause occurs in
the second. -/
def SubsumesAsSet (θ : Nat → Term) (C D : List Literal) : Prop :=
  ∀ L ∈ literalsUnder θ C, L ∈ D

instance (θ : Nat → Term) (C D : List Literal) : Decidable (SubsumesAsSet θ C D) :=
  inferInstanceAs (Decidable (∀ L ∈ literalsUnder θ C, L ∈ D))

@[simp] theorem length_literalsUnder (θ : Nat → Term) (C : List Literal) :
    (literalsUnder θ C).length = C.length :=
  List.length_map _

@[simp] theorem literalsUnder_var (C : List Literal) : literalsUnder .var C = C := by
  rw [literalsUnder, List.map_congr_left fun lit _ => lit.mapTerms_bind_var, List.map_id']

/-- A replacement that keeps the literals apart sends them to different literals. -/
theorem SubsumesAsSet.subsumes {θ : Nat → Term} {C D : List Literal} (h : SubsumesAsSet θ C D)
    (hapart : (literalsUnder θ C).Nodup) : Subsumes C D := by
  have hmem : ∀ i : Fin C.length, (C.get i).mapTerms (TermOver.bind θ) ∈ D :=
    fun i => h _ (List.mem_map_of_mem (List.get_mem C i))
  -- a literal is sent to the first place of its instance
  refine ⟨θ, fun i => ⟨_, List.idxOf_lt_length_of_mem (hmem i)⟩, fun i j hij => ?_, fun i => ?_⟩
  · have hsame : (C.get i).mapTerms (TermOver.bind θ) = (C.get j).mapTerms (TermOver.bind θ) :=
      (List.idxOf_inj (hmem i)).1 (Fin.mk.inj hij)
    have hliterals : C.get i = C.get j :=
      List.inj_on_of_nodup_map hapart (List.get_mem C i) (List.get_mem C j) hsame
    exact List.nodup_iff_injective_get.1 hapart.of_map hliterals
  · exact Or.inl (List.getElem_idxOf _).symm

namespace FeatureVector

/-- A clause that passes the filter has no more literals than the other one, as long as the counts of its
literals are not cut off. -/
theorem length_le_of_counts_le {C D : List Literal} (hshort : C.length ≤ maxCount)
    (h : List.Forall₂ (· ≤ ·) (of C).counts (of D).counts) : C.length ≤ D.length := by
  obtain ⟨hpositive, h⟩ := List.forall₂_cons.1 h
  obtain ⟨hnegative, -⟩ := List.forall₂_cons.1 h
  dsimp only at hpositive hnegative
  have hC : C.length = (C.filter Literal.isPositive).length + (C.filter Literal.isNegative).length :=
    List.length_eq_length_filter_add _
  have hD : D.length = (D.filter Literal.isPositive).length + (D.filter Literal.isNegative).length :=
    List.length_eq_length_filter_add _
  omega

/-- The counts of a clause are at most those of all clauses that it subsumes under a replacement exactly
when the replacement keeps its literals apart. -/
theorem counts_le_iff_nodup (θ : Nat → Term) {C : List Literal} (hshort : C.length ≤ maxCount) :
    (∀ D, SubsumesAsSet θ C D → List.Forall₂ (· ≤ ·) (of C).counts (of D).counts) ↔
      (literalsUnder θ C).Nodup := by
  refine ⟨fun h => ?_, fun hapart D hsub => (hsub.subsumes hapart).counts_le⟩
  -- without repetitions the instance is subsumed, and it must not be shorter than the clause
  have hlength : C.length ≤ (literalsUnder θ C).dedup.length :=
    length_le_of_counts_le hshort (h _ fun L hL => List.mem_dedup.2 hL)
  rw [← length_literalsUnder θ C] at hlength
  rw [← (List.dedup_sublist _).eq_of_length_le hlength]
  exact List.nodup_dedup _

end FeatureVector

namespace FeatureState

/-- Adding and taking out clauses leaves the store as it is, so a run keeps it well formed. -/
theorem wellFormed_performAll {state later : FeatureState} {calls : List ActiveCall}
    (h : state.store.WellFormed) (hrun : state.performAll calls = .ok later) :
    later.store.WellFormed := by
  refine kept_of_foldlM (P := fun s : FeatureState => s.store.WellFormed)
    (fun call _ s next hs hstep => ?_) h hrun
  cases call with
  | store storeCall =>
    cases hstep
    exact hs.perform storeCall
  | add ids =>
    refine kept_of_foldlM (P := fun s : FeatureState => s.store.WellFormed)
      (fun id _ s next hs hinsert => ?_) hs hstep
    obtain ⟨added, -, hend⟩ := Fault.bind_eq_ok.1 hinsert
    cases hend
    exact hs
  | remove ids =>
    refine kept_of_foldlM (P := fun s : FeatureState => s.store.WellFormed)
      (fun id _ s next hs herase => ?_) hs hstep
    cases herase
    exact hs

/-- A clause of the index is found exactly for the clauses whose counts are at least its own. -/
theorem Kept.mem_subsumers_iff {kept : List ClauseId} {state : FeatureState} (h : Kept kept state)
    {id : ClauseId} {clause : Clause} (hid : id ∈ kept) (hget : state.store.get? id = some clause)
    {D : List Literal} :
    id ∈ state.index.subsumers D ↔ List.Forall₂ (· ≤ ·) (FeatureVector.of clause.literals).counts
      (FeatureVector.of D).counts := by
  have hvector : state.index.vector? id = some (.of clause.literals) :=
    h.vector?_eq_some_iff.2 ⟨hid, clause, hget, rfl⟩
  rw [FeatureIndex.subsumers, h.sound.mem_filterPaths_iff (h.length_counts D)]
  simp only [hvector, Option.some.injEq, decide_eq_true_eq, exists_eq_left']

/-- **When the filter for subsumption can be trusted.** Let a clause subsume others as a set of literals,
under one replacement of variables:

* the distinct instances of its literals together have no larger count than a clause that it subsumes, and
  neither has the clause itself if the replacement keeps its literals apart;
* otherwise the law fails: some clause that it subsumes has a smaller count. Only clauses with more literals
  than can be counted are exempt;
* after every run, a clause of the index is found among the possible subsumers of everything that it
  subsumes under a replacement exactly when the replacement keeps its literals apart. -/
theorem merging_filtered (ordering : TermOrder) (selector : Selector) {calls : List ActiveCall}
    {state : FeatureState} (hrun : performAll ⟨.new ordering selector, .empty⟩ calls = .ok state) :
    (∀ θ C D, SubsumesAsSet θ C D →
      List.Forall₂ (· ≤ ·) (FeatureVector.of (literalsUnder θ C).dedup).counts
          (FeatureVector.of D).counts ∧
        ((literalsUnder θ C).Nodup →
          List.Forall₂ (· ≤ ·) (FeatureVector.of C).counts (FeatureVector.of D).counts)) ∧
    (∀ θ C, C.length ≤ FeatureVector.maxCount → ¬ (literalsUnder θ C).Nodup →
      ∃ D, SubsumesAsSet θ C D ∧
        ¬ List.Forall₂ (· ≤ ·) (FeatureVector.of C).counts (FeatureVector.of D).counts) ∧
    ∀ id clause, state.index.contains id = true → state.store.get? id = some clause → ∀ θ,
      (∀ D, SubsumesAsSet θ clause.literals D → id ∈ state.index.subsumers D) ↔
        (literalsUnder θ clause.literals).Nodup := by
  have h : Kept (ActiveCall.keptAfter calls) state := (kept_empty _).performAll hrun
  have hstore : state.store.WellFormed :=
    wellFormed_performAll (ClauseStore.wellFormed_new ordering selector) hrun
  refine ⟨fun θ C D hsub => ⟨?_, fun hapart => (hsub.subsumes hapart).counts_le⟩,
    fun θ C hshort hmerged => ?_, fun id clause hid hget θ => ?_⟩
  · -- the distinct instances are sent to themselves
    have hself : SubsumesAsSet .var (literalsUnder θ C).dedup D := by
      intro L hL
      rw [literalsUnder_var] at hL
      exact hsub L (List.mem_dedup.1 hL)
    refine (hself.subsumes ?_).counts_le
    rw [literalsUnder_var]
    exact List.nodup_dedup _
  · by_contra hnone
    push Not at hnone
    exact hmerged ((FeatureVector.counts_le_iff_nodup θ hshort).1 hnone)
  · have hkept : id ∈ ActiveCall.keptAfter calls := by
      rw [← h.ids]
      exact FeatureIndex.contains_iff.1 hid
    have hshort : clause.literals.length ≤ FeatureVector.maxCount :=
      (hstore.clauses id clause hget).short.trans (by decide)
    simp only [h.mem_subsumers_iff hkept hget]
    exact FeatureVector.counts_le_iff_nodup θ hshort

/-- The clause `p(x) ∨ p(y)`. -/
def factorable : ClauseInput where
  literals := [.prop (.app ⟨0, 1⟩ [.var 0]) true, .prop (.app ⟨0, 1⟩ [.var 1]) true]
  provenance := .input .axiomatic

/-- The clause can be put into an index. -/
theorem exists_factorable_run :
    ∃ state, performAll ⟨.new (.kbo {}) (.preset .none), .empty⟩
        [.store (.create factorable), .add [1]] = .ok state ∧
      state.index.contains 1 = true ∧
      ∃ clause, state.store.get? 1 = some clause ∧ clause.literals = factorable.literals := by
  have hseen : (performAll ⟨((ClauseStore.new (.kbo {}) (.preset .none)).create factorable).1, .empty⟩
      [.add [1]]).map (fun state => (state.index.contains 1, (state.store.get? 1).map (·.literals))) =
      .ok (true, some factorable.literals) := by
    rw [ClauseStore.create_new_eq_createNew _ _ (by decide) (by decide)]
    decide +kernel
  obtain ⟨state, hafter, hseen⟩ := Fault.bind_eq_ok.1 hseen
  have hrun : performAll ⟨.new (.kbo {}) (.preset .none), .empty⟩
      [.store (.create factorable), .add [1]] = .ok state := hafter
  exact ⟨state, hrun, by simpa using Except.ok.inj hseen⟩

/-- Replacing `x` by `a` and `y` by `b` keeps the literals apart, so the clause is found for
`q ∨ p(b) ∨ p(a)`. -/
theorem merging_filtered_apart :
    ∃ state, performAll ⟨.new (.kbo {}) (.preset .none), .empty⟩
        [.store (.create factorable), .add [1]] = .ok state ∧
      (literalsUnder .const factorable.literals).Nodup ∧
      1 ∈ state.index.subsumers [.prop (.const 7) true, .prop (.app ⟨0, 1⟩ [.const 1]) true,
        .prop (.app ⟨0, 1⟩ [.const 0]) true] := by
  obtain ⟨state, hrun, hcontains, clause, hget, hliterals⟩ := exists_factorable_run
  have hapart : (literalsUnder .const factorable.literals).Nodup := by decide +kernel
  obtain ⟨-, -, hfound⟩ := merging_filtered (.kbo {}) (.preset .none) hrun
  rw [← hliterals] at hapart
  refine ⟨state, hrun, hliterals ▸ hapart, (hfound 1 clause hcontains hget .const).2 hapart _ ?_⟩
  rw [hliterals]
  decide +kernel

/-- Replacing both variables by `a` merges the literals of `p(x) ∨ p(y)` into `p(a)`. The clause subsumes
`p(a)` and has more literals, and the index that holds it does not find it. -/
theorem merged_subsumer_missed :
    ∃ state, performAll ⟨.new (.kbo {}) (.preset .none), .empty⟩
        [.store (.create factorable), .add [1]] = .ok state ∧
      ∃ clause, state.index.contains 1 = true ∧ state.store.get? 1 = some clause ∧
        SubsumesAsSet (fun _ => .const 0) clause.literals [.prop (.app ⟨0, 1⟩ [.const 0]) true] ∧
        ¬ List.Forall₂ (· ≤ ·) (FeatureVector.of clause.literals).counts
          (FeatureVector.of [.prop (.app ⟨0, 1⟩ [.const 0]) true]).counts ∧
        1 ∉ state.index.subsumers [.prop (.app ⟨0, 1⟩ [.const 0]) true] := by
  obtain ⟨state, hrun, hcontains, clause, hget, hliterals⟩ := exists_factorable_run
  have hcounts : ¬ List.Forall₂ (· ≤ ·) (FeatureVector.of clause.literals).counts
      (FeatureVector.of [.prop (.app ⟨0, 1⟩ [.const 0]) true]).counts := by
    rw [hliterals]
    decide +kernel
  have hkept : Kept [1] state := (kept_empty _).performAll hrun
  refine ⟨state, hrun, clause, hcontains, hget, ?_, hcounts, fun hmem => hcounts ?_⟩
  · rw [hliterals]
    decide +kernel
  · exact (hkept.mem_subsumers_iff List.mem_cons_self hget).1 hmem

end FeatureState

end GivenClause
