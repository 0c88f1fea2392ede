import Mathlib.Order.WellFoundedSet
import GivenClause.Proofs.Clause.EligibleInstances
import GivenClause.Proofs.Order.MultisetExtension

/-! # Dropped literals lie below kept ones

A candidate that another candidate is greater than is not eligible, and that other one may be dropped in
turn. Since the order on literals is a strict order and there are finitely many candidates, the chain ends:
every dropped literal lies below a kept one, of its own sign under a selection. So a clause with literals
always has one to resolve upon.

* `BelowOther.exists_maximal`: a literal below another is below one that is below none;
* `Clause.exists_eligible_above` says so of eligible literals;
* `Clause.compareLiterals_of_kept`: what was kept was compared with all others;
* `ClauseStore.eligible_dominates_dropped` is the result for clauses of a store. -/

namespace GivenClause

/-! ## Chains of greater literals -/

/-- Literals with their indices form a strict order, in which the greater one comes first. -/
instance Kbo.isStrictOrder_literalGreater (kbo : Kbo) :
    IsStrictOrder (Literal × Nat) fun d e => kbo.LiteralGreater d.1 e.1 where
  irrefl _ h := h.ne rfl
  trans _ _ _ hcd hde := hcd.trans hde

/-- A literal that is below another one of a list is below one that is itself below none. -/
theorem BelowOther.exists_maximal {kbo : Kbo} {sameSign : Bool} {members : List (Literal × Nat)}
    {e : Literal × Nat} (he : e ∈ members) (h : BelowOther kbo sameSign e members) :
    ∃ d ∈ members, (sameSign = true → d.1.isPositive = e.1.isPositive) ∧
      kbo.LiteralGreater d.1 e.1 ∧ ¬ BelowOther kbo sameSign d members := by
  have hwf := Set.wellFoundedOn_iff.1
    (members.finite_toSet.wellFoundedOn (r := fun d e => kbo.LiteralGreater d.1 e.1))
  -- from the top down: the literals above `e` are dealt with before `e`
  induction e using hwf.induction with
  | _ e ih =>
    obtain ⟨u, hu, -, hsign, hgreater⟩ := h
    by_cases hbelow : BelowOther kbo sameSign u members
    · obtain ⟨d, hd, hsign', hgreater', hnone⟩ := ih u ⟨hgreater, hu, he⟩ hu hbelow
      exact ⟨d, hd, fun h => (hsign' h).trans (hsign h), hgreater'.trans hgreater, hnone⟩
    · exact ⟨u, hu, hsign, hgreater, hbelow⟩

/-- A candidate that is not eligible lies below an eligible one. -/
theorem Clause.exists_eligible_above {clause : Clause} {kbo : Kbo} {literals : List Literal} {i : Nat}
    (hcandidate : clause.candidates.contains i = true) (hnot : ¬ clause.Eligible kbo literals i) :
    ∃ k lit other, clause.Eligible kbo literals k ∧ literals[i]? = some lit ∧
      literals[k]? = some other ∧
      (clause.selected.isEmpty = false → other.isPositive = lit.isPositive) ∧
      kbo.LiteralGreater other lit := by
  obtain ⟨lit, hlit, hbelow⟩ : ∃ lit, literals[i]? = some lit ∧ BelowOther kbo
      (!clause.selected.isEmpty) (lit, i) (literalsIn clause.candidates literals) := by
    by_contra hnone
    exact hnot ⟨hcandidate, fun lit hlit hbelow => hnone ⟨lit, hlit, hbelow⟩⟩
  obtain ⟨⟨other, k⟩, hmem, hsign, hgreater, hmaximal⟩ :=
    hbelow.exists_maximal (mem_literalsIn.2 ⟨hlit, hcandidate⟩)
  obtain ⟨hother, hk⟩ := mem_literalsIn.1 hmem
  have hkept : clause.Eligible kbo literals k := by
    refine ⟨hk, fun other' hother' => ?_⟩
    cases hother.symm.trans hother'
    exact hmaximal
  exact ⟨k, lit, other, hkept, hlit, hother, fun h => hsign (by simp [h]), hgreater⟩

/-! ## Comparisons that were made -/

/-- A literal that was found to be below no other was compared with all that count. -/
theorem compareLiterals_of_isBelowOther_eq_false {kbo : Kbo} {sameSign : Bool} {e d : Literal × Nat}
    {ds : List (Literal × Nat)} (h : isBelowOther kbo sameSign e ds = .ok false) (hd : d ∈ ds)
    (hindex : d.2 ≠ e.2) (hsign : sameSign = true → d.1.isPositive = e.1.isPositive) :
    ∃ c, TermOrder.compareLiterals kbo e.1 d.1 = .ok c := by
  induction ds with
  | nil => cases hd
  | cons u ds ih =>
    rw [isBelowOther] at h
    split at h
    · next hskip =>
      -- what is passed over does not count
      refine ih h ((List.mem_cons.1 hd).resolve_left ?_)
      rintro rfl
      exact hskip.elim hindex fun hother => hother.2 (hsign hother.1)
    · obtain ⟨c, hc, hrest⟩ := Fault.bind_eq_ok.1 h
      rcases List.mem_cons.1 hd with rfl | hd
      · exact ⟨c, hc⟩
      · -- the search goes on after this comparison, as it ends with `false`
        split at hrest
        · cases hrest
        · exact ih hrest hd

/-- Taking out what is below another decides this for all members. -/
theorem isBelowOther_of_eraseBelow_eq_ok {kbo : Kbo} {sameSign : Bool} {all es : List (Literal × Nat)}
    {set left : LiteralSet} (h : eraseBelow kbo sameSign all set es = .ok left)
    {e : Literal × Nat} (he : e ∈ es) : ∃ below, isBelowOther kbo sameSign e all = .ok below := by
  induction es generalizing set with
  | nil => cases he
  | cons u es ih =>
    rw [eraseBelow] at h
    obtain ⟨below, hbelow, hrest⟩ := Fault.bind_eq_ok.1 h
    rcases List.mem_cons.1 he with rfl | he
    · exact ⟨below, hbelow⟩
    · exact ih hrest he

namespace Clause

variable {clause : Clause} {kbo : Kbo} {σ : Substitution} {scope : Nat} {set : LiteralSet}

/-- A literal that was kept was compared with all other candidates, under a selection with those of its
sign. -/
theorem compareLiterals_of_kept (h : clause.eligibleForResolution kbo σ scope = .ok set) {i k : Nat}
    {lit other : Literal} (hk : set.contains k = true) (hi : clause.candidates.contains i = true)
    (hlit : (clause.instanceLiterals σ scope)[i]? = some lit)
    (hother : (clause.instanceLiterals σ scope)[k]? = some other) (hik : i ≠ k)
    (hsign : clause.selected.isEmpty = false → other.isPositive = lit.isPositive) :
    ∃ c, TermOrder.compareLiterals kbo other lit = .ok c := by
  have hkept := ((clause.eligibleForResolution_yields kbo σ scope).sound set h k).1 hk
  have hmem : (other, k) ∈ literalsIn clause.candidates (clause.instanceLiterals σ scope) :=
    mem_literalsIn.2 ⟨hother, hkept.candidate⟩
  -- whether it is below another was decided, and since it was kept, it is not
  obtain ⟨below, hbelow⟩ := isBelowOther_of_eraseBelow_eq_ok h hmem
  have hfalse : below = false := by
    rw [Bool.eq_false_iff]
    intro htrue
    exact hkept.maximal other hother (((isBelowOther_yields kbo _ _ _).sound below hbelow).1 htrue)
  rw [hfalse] at hbelow
  have hmem' : (lit, i) ∈ literalsIn clause.candidates (clause.instanceLiterals σ scope) :=
    mem_literalsIn.2 ⟨hlit, hi⟩
  refine compareLiterals_of_isBelowOther_eq_false hbelow hmem' hik ?_
  intro hselected
  exact (hsign (by simpa using hselected)).symm

/-- A candidate that was dropped compares as smaller than one that was kept. -/
theorem exists_kept_above (h : clause.eligibleForResolution kbo σ scope = .ok set) {i : Nat}
    (hcandidate : clause.candidates.contains i = true) (hdropped : set.contains i = false) :
    ∃ k lit other, set.contains k = true ∧ (clause.instanceLiterals σ scope)[i]? = some lit ∧
      (clause.instanceLiterals σ scope)[k]? = some other ∧
      (clause.selected.isEmpty = false → other.isPositive = lit.isPositive) ∧
      kbo.LiteralGreater other lit ∧ TermOrder.compareLiterals kbo other lit = .ok .gt := by
  have hset := (clause.eligibleForResolution_yields kbo σ scope).sound set h
  have hnot : ¬ clause.Eligible kbo (clause.instanceLiterals σ scope) i := by
    rw [← hset i, hdropped]
    exact Bool.false_ne_true
  obtain ⟨k, lit, other, heligible, hlit, hother, hsign, hgreater⟩ :=
    exists_eligible_above hcandidate hnot
  have hk : set.contains k = true := (hset k).2 heligible
  refine ⟨k, lit, other, hk, hlit, hother, hsign, hgreater, ?_⟩
  have hik : i ≠ k := fun heq => Bool.false_ne_true (hdropped.symm.trans (heq ▸ hk))
  obtain ⟨c, hc⟩ := compareLiterals_of_kept h hk hcandidate hlit hother hik hsign
  have htells := (kbo.compareLiterals_yields other lit).sound c hc
  rw [hc, (htells.eq_gt_iff (fun h => h.ne) fun h => h.asymm).2 hgreater]

/-- There are candidates unless the clause has neither literals nor a selection. -/
theorem isEmpty_candidates_iff (clause : Clause) :
    clause.candidates.isEmpty = true ↔ clause.isEmpty = true ∧ clause.selected.isEmpty = true := by
  rw [candidates]
  split
  · next hselected =>
    rw [and_iff_left hselected, LiteralSet.isEmpty_iff, isEmpty, List.isEmpty_iff]
    constructor
    · intro h
      have hzero := h 0
      rw [LiteralSet.contains_below, decide_eq_false_iff_not, LiteralSet.capacity, length] at hzero
      exact List.length_eq_zero_iff.1 (by omega)
    · intro h i
      rw [LiteralSet.contains_below, length, h]
      simp
  · next hselected => exact iff_of_false hselected fun h => hselected h.2

/-- Something is kept where there are candidates. -/
theorem isEmpty_eligible_iff (h : clause.eligibleForResolution kbo σ scope = .ok set) :
    set.isEmpty = true ↔ clause.candidates.isEmpty = true := by
  have hset := (clause.eligibleForResolution_yields kbo σ scope).sound set h
  rw [LiteralSet.isEmpty_iff, LiteralSet.isEmpty_iff]
  constructor
  · -- a candidate is kept itself, or it was dropped for one that is kept
    intro hnone i
    rw [Bool.eq_false_iff]
    intro hcandidate
    obtain ⟨k, lit, other, hk, -⟩ := exists_kept_above h hcandidate (hnone i)
    exact Bool.false_ne_true ((hnone k).symm.trans hk)
  · intro hnone i
    rw [Bool.eq_false_iff]
    intro hi
    exact Bool.false_ne_true ((hnone i).symm.trans ((hset i).1 hi).candidate)

end Clause

/-! ## Clauses of a store -/

namespace ClauseStore

/-- Eligibility never blocks a clause. For every clause of a store with a Knuth–Bendix ordering, every
substitution and every scope:

* if the weights of the instance fit, nothing overflows;
* if nothing overflows, the literals to resolve upon are determined, and there are some unless the clause is
  empty, without a selection;
* they are candidates, and every other candidate is strictly smaller on the instance than one of them, which
  has the same sign when the clause has a selection. -/
theorem eligible_dominates_dropped {store : ClauseStore} {kbo : Kbo} (hordering : store.ordering = kbo)
    {id : ClauseId} {clause : Clause} (hclause : store.get id = .ok clause) (σ : Substitution)
    (scope : Nat) :
    ((∀ lit ∈ clause.instanceLiterals σ scope, kbo.LiteralFits lit) →
      store.eligibleForResolution id σ scope ≠ .error .weightOverflow) ∧
    (store.eligibleForResolution id σ scope ≠ .error .weightOverflow →
      ∃ set, store.eligibleForResolution id σ scope = .ok set ∧
        (set.isEmpty = true ↔ clause.isEmpty = true ∧ clause.selected.isEmpty = true) ∧
        (∀ i, set.contains i = true → clause.candidates.contains i = true) ∧
        ∀ i, clause.candidates.contains i = true → set.contains i = false →
          ∃ k lit other, set.contains k = true ∧
            (clause.instanceLiterals σ scope)[i]? = some lit ∧
            (clause.instanceLiterals σ scope)[k]? = some other ∧
            (clause.selected.isEmpty = false → other.isPositive = lit.isPositive) ∧
            store.ordering.compareLiterals other lit = .ok .gt ∧
            (kbo.LiteralFits lit → kbo.LiteralFits other →
              store.ordering.compareLiterals lit other = .ok .lt)) := by
  rw [eligibleForResolution_eq hclause, hordering]
  have hyields := clause.eligibleForResolution_yields kbo σ scope
  refine ⟨fun hfits => hyields.ne_error hfits _, fun hno => ?_⟩
  obtain ⟨set, hset⟩ := (clause.eligibleForResolution_onlyOverflows _ σ scope).exists_ok hno
  refine ⟨set, hset, ?_, fun i hi => ((hyields.sound set hset i).1 hi).candidate, ?_⟩
  · rw [Clause.isEmpty_eligible_iff hset, Clause.isEmpty_candidates_iff]
  · intro i hcandidate hdropped
    obtain ⟨k, lit, other, hk, hlit, hother, hsign, hgreater, hgt⟩ :=
      Clause.exists_kept_above hset hcandidate hdropped
    refine ⟨k, lit, other, hk, hlit, hother, hsign, hgt, fun hfits hfits' => ?_⟩
    -- the other way round more terms may be weighed, which is why both have to fit
    exact (Kbo.compareMultisets_eq_ok_iff (fun t ht => hfits t (Literal.mem_orderingTerms.1 ht))
      fun t ht => hfits' t (Literal.mem_orderingTerms.1 ht)).2 (.lt hgreater)

/-- The clause `p(x) ∨ p(f(x)) ∨ p(f(f(x))) ∨ ¬p(x)` with all its literals selected. -/
def towers : ClauseInput where
  literals := [.prop (.app ⟨0, 1⟩ [.var 0]) true, .prop (.app ⟨0, 1⟩ [.app ⟨1, 1⟩ [.var 0]]) true,
    .prop (.app ⟨0, 1⟩ [.app ⟨1, 1⟩ [.app ⟨1, 1⟩ [.var 0]]]) true, .prop (.app ⟨0, 1⟩ [.var 0]) false]
  provenance := .input .axiomatic
  selected := some ⟨15⟩

/-- A new store to which the clause was added. -/
def towersStore : ClauseStore :=
  ((ClauseStore.new (.kbo {}) (.preset .none)).create towers).1

theorem towersStore_eq :
    towersStore = (((ClauseStore.bare (.kbo {}) (.preset .none)).createNew
      { literals := [.verum], provenance := (Provenance.input .axiomatic).persist }
      [.verum]).1.createNew towers towers.literals).1 := by
  rw [towersStore, ClauseStore.create_new_eq_createNew _ _ (by decide) (by decide)]
  rfl

/-- With `x` replaced by `a`, the last positive literal and the negative one are kept. The first literal lies
below the second, which is dropped as well, and below the kept one of its sign. -/
theorem eligible_dominates_dropped_towers :
    let σ : Substitution := ⟨[(⟨1, 0⟩, .const 0)]⟩
    ∃ clause set, towersStore.get 1 = .ok clause ∧ clause.selected.isEmpty = false ∧
      towersStore.eligibleForResolution 1 σ 1 = .ok set ∧ set.toList = [2, 3] ∧
      set.isEmpty = false ∧
      ∃ k other, set.contains k = true ∧ other.isPositive = true ∧
        (clause.instanceLiterals σ 1)[k]? = some other ∧
        towersStore.ordering.compareLiterals other (.prop (.app ⟨0, 1⟩ [.const 0]) true) = .ok .gt := by
  intro σ
  obtain ⟨clause, hclause, hliterals, hselected⟩ : ∃ clause, towersStore.get 1 = .ok clause ∧
      clause.literals = towers.literals ∧ clause.selected = ⟨15⟩ := by
    rw [towersStore_eq]
    exact ⟨_, rfl, rfl, rfl⟩
  have hordering : towersStore.ordering = .kbo {} := by
    rw [towersStore_eq]
    rfl
  have hσ : towersStore.eligibleForResolution 1 σ 1 = .ok ⟨12⟩ := by
    rw [towersStore_eq]
    decide +kernel
  have hfirst : (clause.instanceLiterals σ 1)[0]? =
      some (.prop (.app ⟨0, 1⟩ [.const 0]) true) := by
    rw [Clause.instanceLiterals, hliterals]
    decide +kernel
  have hcandidate : clause.candidates.contains 0 = true := by
    rw [Clause.candidates, hselected, if_neg (by decide)]
    decide
  obtain ⟨set, hset, hempty, -, hdropped⟩ :=
    (eligible_dominates_dropped hordering hclause σ 1).2 (by rw [hσ]; exact fun h => by cases h)
  have heq : set = ⟨12⟩ := Except.ok.inj (hset.symm.trans hσ)
  obtain ⟨k, lit, other, hk, hlit, hother, hsign, hgt, -⟩ :=
    hdropped 0 hcandidate (by rw [heq]; decide)
  cases hlit.symm.trans hfirst
  have hnonempty : clause.selected.isEmpty = false := by
    rw [hselected]
    decide
  refine ⟨clause, set, hclause, hnonempty, hset, by rw [heq]; decide, ?_, k, other, hk,
    hsign hnonempty, hother, hgt⟩
  rw [Bool.eq_false_iff, Ne, hempty, hnonempty]
  exact fun h => Bool.false_ne_true h.2

end ClauseStore

end GivenClause
