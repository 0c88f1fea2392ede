import GivenClause.Proofs.Retrieval.TermSearch
import GivenClause.Proofs.Search.IndexRuns

/-! # Looking up rewrite rules

A term can be rewritten by a unit equation where it is an instance of one side and greater than the same
instance of the other. Which sides are stored is decided once, on the equation as it stands; since the
ordering is stable, a side that is greater on some instance is never left out, and a side that is marked as
oriented is greater on all instances.

* `DiscriminationTree.Stores.mem_generalizations`: stored values are found by the instances of their terms;
* `Clause.mem_rewriteRules_of_instance` and `Kbo.Greater.compare_bind`: the two uses of stability;
* `RuleState.candidates_complete` for all runs under one ordering. -/

namespace GivenClause

open DiscriminationTree (entryOf)

/-- What is stored under a term is found as a generalization of its instances. -/
theorem DiscriminationTree.Stores.mem_generalizations {α : Type} [DecidableEq α]
    {tree : DiscriminationTree α} {stored : Multiset (List FlatKey × α)} (h : tree.Stores stored)
    {t q : Term} {value : α} (hmem : entryOf (t, value) ∈ stored) (ht : t.ArityExact)
    (hq : q.ArityExact) {θ : Nat → Term} (hinstance : t.bind θ = q) : value ∈ tree.generalizations q := by
  have hagrees : Matching.agrees ⟨true, false⟩ t q = true := by
    rw [Matching.agrees_iff_outlines, ← hinstance]
    exact t.outlines_bind θ
  have haccepts : Matching.accepts ⟨true, false⟩ 0 t.storedKeys q.queryKeys = true :=
    (Matching.accepts_storedKeys ht hq).trans hagrees
  refine (h.sound.wellShaped.search_perm ⟨true, false⟩ 0 _).symm.subset ?_
  exact List.mem_map.2 ⟨_, List.mem_filter.2 ⟨h.mem_iff.2 hmem, haccepts⟩, rfl⟩

/-- A side of a unit equation that is greater than the other on some instance is stored. -/
theorem Clause.mem_rewriteRules_of_instance {clause : Clause} {kbo : Kbo}
    {rules : List (Term × RewriteEntry)} (h : clause.rewriteRules kbo = .ok rules) {lhs rhs : Term}
    (hunit : clause.literals = [.equation lhs rhs true]) {side : Side} {θ : Nat → Term}
    (hgreater : kbo.Greater ((side.pick lhs rhs).bind θ) ((side.pick rhs lhs).bind θ)) :
    ∃ oriented, (side.pick lhs rhs, ⟨clause.id, side, oriented⟩) ∈ rules := by
  classical
  -- were the other side greater, it would be greater on the instance too
  have hnot : ¬ kbo.Greater (side.pick rhs lhs) (side.pick lhs rhs) :=
    fun hother => hgreater.asymm (hother.bind θ)
  refine ⟨decide (kbo.Greater (side.pick lhs rhs) (side.pick rhs lhs)), ?_⟩
  exact (clause.mem_rewriteRules h hunit).2 ⟨rfl, rfl, hnot, decide_eq_true_iff⟩

/-- Comparing instances of a greater and a smaller term finds the first one greater, and stops only where
its weight does not fit. -/
theorem Kbo.Greater.compare_bind {kbo : Kbo} {s t : Term} (h : kbo.Greater s t) (θ : Nat → Term) :
    kbo.compare (s.bind θ) (t.bind θ) = .ok .gt ∨
      kbo.compare (s.bind θ) (t.bind θ) = .error .weightOverflow ∧ ¬ kbo.Fits (s.bind θ) := by
  have hinstance := h.bind θ
  by_cases hoverflows : kbo.CompareOverflows (s.bind θ) (t.bind θ)
  · refine Or.inr ⟨Kbo.compare_eq_error_iff.2 ⟨rfl, hoverflows⟩, fun hfits => ?_⟩
    have hfits' : kbo.Fits (t.bind θ) := hinstance.exactWeight_le.trans_lt hfits
    exact Kbo.not_compareOverflows hfits hfits' hoverflows
  · exact Or.inl (Kbo.compare_eq_ok_iff.2 ⟨hoverflows, .gt hinstance⟩)

namespace RuleState

variable {kept : List ClauseId} {state : RuleState}

/-- A kept rule is found wherever it makes a term smaller. -/
theorem Kept.exists_mem_candidates {kbo : Kbo} (h : Kept (· = kbo) kept state) {id : ClauseId}
    (hid : id ∈ state.rules.ids) {clause : Clause} (hget : state.store.get? id = some clause)
    {lhs rhs : Term} (hunit : clause.literals = [.equation lhs rhs true]) {side : Side}
    {θ : Nat → Term} {q : Term} (hside : Term.ArityExact (side.pick lhs rhs)) (hq : q.ArityExact)
    (hinstance : (side.pick lhs rhs).bind θ = q)
    (hgreater : kbo.Greater q ((side.pick rhs lhs).bind θ)) :
    ∃ e ∈ state.rules.candidates q, e.clause = id ∧ e.side = side := by
  obtain ⟨e, he, rfl⟩ := List.mem_map.1 hid
  obtain ⟨_, rfl, clause', hget', hrules, -⟩ := h.ruled e he
  rw [hget, Option.some.injEq] at hget'
  subst hget'
  rw [← hinstance] at hgreater
  obtain ⟨oriented, hrule⟩ := clause.mem_rewriteRules_of_instance hrules hunit hgreater
  refine ⟨⟨clause.id, side, oriented⟩, ?_, h.numbered _ _ hget, rfl⟩
  refine h.sound.stores.mem_generalizations ?_ hside hq hinstance
  exact Multiset.mem_coe.2 (List.mem_map_of_mem (List.mem_flatMap.2 ⟨e, he, hrule⟩))

/-- Looking up rewrite rules is complete, and oriented rules always decrease. After every run under one
Knuth–Bendix ordering:

* the index holds the unit equations among the clauses that were added and not taken out since;
* when a term is an instance of a side of one of them and greater than the same instance of the other side,
  the rule from that side is among the candidates for the term;
* what the tree holds are rules of such clauses, and in one that is marked as oriented no variable is new on
  the smaller side and every instance decreases, unless comparing it stops at a weight that does not fit. -/
theorem candidates_complete (ordering : TermOrder) (selector : Selector) (setup : List StoreCall)
    {kbo : Kbo} (hordering : ((ClauseStore.new ordering selector).performAll setup).ordering = kbo)
    {calls : List ActiveCall} (hcalls : ∀ call ∈ calls, call.setsOrdering = false) {state : RuleState}
    (hrun : performAll ⟨(ClauseStore.new ordering selector).performAll setup, .empty⟩ calls =
      .ok state) :
    (∀ id, state.rules.contains id = true ↔
      id ∈ ActiveCall.keptAfter calls ∧ state.store.HasUnitEquation id) ∧
    (∀ id clause lhs rhs, state.rules.contains id = true → state.store.get? id = some clause →
      clause.literals = [.equation lhs rhs true] →
      ∀ (side : Side) (θ : Nat → Term) (q : Term), Term.ArityExact (side.pick lhs rhs) →
        q.ArityExact → (side.pick lhs rhs).bind θ = q →
        state.store.ordering.compare q ((side.pick rhs lhs).bind θ) = .ok .gt →
        ∃ e ∈ state.rules.candidates q, e.clause = id ∧ e.side = side) ∧
    ∀ e ∈ state.rules.tree.entries RewriteEntry.le, state.rules.contains e.2.clause = true ∧
      ∃ clause lhs rhs, state.store.get? e.2.clause = some clause ∧
        clause.literals = [.equation lhs rhs true] ∧ e.1 = (e.2.side.pick lhs rhs).storedKeys ∧
        (e.2.oriented = true →
          (e.2.side.pick rhs lhs).varOccurrences ⊆ (e.2.side.pick lhs rhs).varOccurrences ∧
          ∀ θ : Nat → Term,
            let l := (e.2.side.pick lhs rhs).bind θ
            let r := (e.2.side.pick rhs lhs).bind θ
            state.store.ordering.compare l r = .ok .gt ∨
              state.store.ordering.compare l r = .error .weightOverflow ∧ ¬ kbo.Fits l) := by
  have hnumbered : ((ClauseStore.new ordering selector).performAll setup).Numbered :=
    ClauseStore.performAll_induction (fun _ call hs => hs.perform call) _ setup
      (ClauseStore.numbered_new ordering selector)
  have hsame : ∀ call ∈ calls, ∀ order, call = .store (.setOrdering order) → order = kbo := by
    rintro call hcall order rfl
    cases hcalls _ hcall
  have hstart : Kept (· = kbo) [] ⟨(ClauseStore.new ordering selector).performAll setup, .empty⟩ :=
    kept_empty hnumbered hordering
  have h := hstart.performAll hsame hrun
  refine ⟨fun id => ?_, ?_, fun e he => ?_⟩
  · rw [RewriteIndex.contains_iff]
    exact h.mem_ids id
  · intro id clause lhs rhs hid hget hunit side θ q hside hq hinstance hcompare
    rw [h.ordering] at hcompare
    have hgreater := (Kbo.compare_eq_ok_iff.1 hcompare).2.gt_iff.1 rfl
    exact h.exists_mem_candidates (RewriteIndex.contains_iff.1 hid) hget hunit hside hq hinstance hgreater
  · obtain ⟨hid, _, clause, lhs, rhs, rules, rfl, hget, hunit, hkeys, hrules, hrule⟩ :=
      h.exists_of_mem_entries he
    refine ⟨RewriteIndex.contains_iff.2 hid, clause, lhs, rhs, hget, hunit, hkeys, fun hmark => ?_⟩
    obtain ⟨-, -, -, horiented⟩ := (clause.mem_rewriteRules hrules hunit).1 hrule
    have hgreater := horiented.1 hmark
    rw [h.ordering]
    exact ⟨hgreater.covers.subset, fun θ => hgreater.compare_bind θ⟩

/-- The equation `f(x, y) = f(y, x)`, which has no greater side. -/
def commutativity : ClauseInput where
  literals := [.equation (.app ⟨0, 2⟩ [.var 0, .var 1]) (.app ⟨0, 2⟩ [.var 1, .var 0]) true]
  provenance := .input .axiomatic

/-- The equation `g(x) = a`, whose left side is greater. -/
def collapse : ClauseInput where
  literals := [.equation (.app ⟨1, 1⟩ [.var 0]) (.const 0) true]
  provenance := .input .axiomatic

/-- A store with both equations. -/
def equationStore : ClauseStore :=
  (((ClauseStore.bare (.kbo {}) (.preset .none)).createNew
    { literals := [.verum], provenance := (Provenance.input .axiomatic).persist }
    [.verum]).1.createNew commutativity commutativity.literals).1.createNew collapse collapse.literals |>.1

theorem equationStore_eq :
    (((ClauseStore.new (.kbo {}) (.preset .none)).create commutativity).1.create collapse).1 =
      equationStore := by
  have hother : ∀ (store : ClauseStore) literals epoch, collapse.literals ≠ literals →
      store.keyFor collapse ≠ ⟨literals, epoch⟩ :=
    fun store literals epoch hne heq => hne (congrArg ClauseKey.literals heq)
  rw [ClauseStore.create_new_eq_createNew _ _ (by decide) (by decide), ← ClauseStore.new_eq_createNew]
  rw [ClauseStore.create_eq_createNew (by decide)]
  · rw [ClauseStore.new_eq_createNew]
    rfl
  · rw [ClauseStore.getElem?_table_createNew (hother _ _ _ (by decide))]
    exact ClauseStore.getElem?_table_new (hother _ _ _ (by decide))

/-- The first equation rewrites `f(g(a), a)`, although neither of its sides is greater; the second one is
taken out and added again, and is oriented. -/
theorem candidates_complete_equations :
    ∃ state, performAll
        ⟨(ClauseStore.new (.kbo {}) (.preset .none)).performAll [.create commutativity], .empty⟩
        [.store (.create collapse), .add [1, 2, 1], .remove [2], .add [2]] = .ok state ∧
      (state.rules.contains 1 = true ∧ state.rules.contains 2 = true) ∧
      (∃ e ∈ state.rules.candidates (.app ⟨0, 2⟩ [.app ⟨1, 1⟩ [.const 0], .const 0]),
        e.clause = 1 ∧ e.side = .left) ∧
      ∃ e ∈ state.rules.tree.entries RewriteEntry.le, e.2 = ⟨2, .left, true⟩ ∧
        ∃ clause lhs rhs, state.store.get? 2 = some clause ∧
          clause.literals = [.equation lhs rhs true] ∧ rhs.varOccurrences ⊆ lhs.varOccurrences := by
  have hseen : (performAll ⟨equationStore, .empty⟩ [.add [1, 2, 1], .remove [2], .add [2]]).map
      (fun state => ((state.store.get? 1).map (·.literals), state.rules.ids,
        state.rules.tree.contents)) =
      .ok (some commutativity.literals, [1, 2],
        [([.function 0 2, .star, .star], ⟨1, .left, false⟩),
          ([.function 0 2, .star, .star], ⟨1, .right, false⟩),
          ([.function 1 1, .star], ⟨2, .left, true⟩)]) := by
    decide +kernel
  have hordering : (performAll ⟨equationStore, .empty⟩ [.add [1, 2, 1], .remove [2], .add [2]]).bind
      (fun state => state.store.ordering.compare (.app ⟨0, 2⟩ [.app ⟨1, 1⟩ [.const 0], .const 0])
        (.app ⟨0, 2⟩ [.const 0, .app ⟨1, 1⟩ [.const 0]])) = .ok .gt := by
    decide +kernel
  obtain ⟨state, hafter, hseen⟩ := Fault.bind_eq_ok.1 hseen
  obtain ⟨hliterals, hids, hcontents⟩ : _ ∧ _ ∧ _ := by simpa using Except.ok.inj hseen
  obtain ⟨state', hafter', hcompare⟩ := Fault.bind_eq_ok.1 hordering
  obtain rfl : state = state' := Except.ok.inj (hafter.symm.trans hafter')
  have hrun : performAll
      ⟨(ClauseStore.new (.kbo {}) (.preset .none)).performAll [.create commutativity], .empty⟩
      [.store (.create collapse), .add [1, 2, 1], .remove [2], .add [2]] = .ok state := by
    rw [← equationStore_eq] at hafter
    exact hafter
  have hstart : ((ClauseStore.new (.kbo {}) (.preset .none)).performAll
      [.create commutativity]).ordering = .kbo {} := by
    rw [ClauseStore.new_eq_createNew]
    exact (ClauseStore.create_outcome _ commutativity).settings_eq.1
  obtain ⟨-, hcandidates, hentries⟩ := candidates_complete (.kbo {}) (.preset .none)
    [.create commutativity] hstart (by decide) hrun
  have hcontains : ∀ id ∈ [1, 2], state.rules.contains id = true := by
    intro id hid
    rw [RewriteIndex.contains_iff, hids]
    exact hid
  refine ⟨state, hrun, ⟨hcontains 1 (by decide), hcontains 2 (by decide)⟩, ?_, ?_⟩
  · obtain ⟨clause, hget, hclause⟩ := hliterals
    exact hcandidates 1 clause _ _ (hcontains 1 (by decide)) hget hclause .left
      (fun x => if x = 0 then .app ⟨1, 1⟩ [.const 0] else .const 0) _ (by decide) (by decide) rfl hcompare
  · have hmem : ([.function 1 1, .star], ⟨2, .left, true⟩) ∈
        state.rules.tree.entries RewriteEntry.le := by
      refine (state.rules.tree.entries_perm _).symm.subset ?_
      rw [hcontents]
      decide
    obtain ⟨-, clause, lhs, rhs, hget, hunit, -, horiented⟩ := hentries _ hmem
    exact ⟨_, hmem, rfl, clause, lhs, rhs, hget, hunit, (horiented rfl).1⟩

end RuleState

end GivenClause
