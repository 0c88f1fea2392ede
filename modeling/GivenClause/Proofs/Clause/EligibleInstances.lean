import GivenClause.Proofs.Clause.EligibleLiterals
import GivenClause.Proofs.Clause.StoreRuns
import GivenClause.Proofs.Order.ComparisonLaws

/-! # Eligibility under instantiation

The literals of a clause under a substitution are an instance of its literals, and a literal that is
below another stays below it on every instance. So the more is replaced, the fewer literals are eligible.
The only reason for which the eligible literals are not determined is a weight that does not fit.

* `FaultsOnly` bounds the faults of a computation. `OnlyOverflows` allows that fault only, and
  `Clause.eligibleForResolution_onlyOverflows` says that eligibility is such a computation under every
  ordering; `OnlyRefuses` allows an unknown clause as well;
* `Clause.InstanceUnder` compares the literals under two substitutions;
* `ClauseStore.eligible_on_instance_subset`: eligibility shrinks under instantiation. -/

namespace GivenClause

/-! ## The faults of a computation -/

/-- Every fault that a computation can end with has a property. -/
def FaultsOnly {α : Type} (P : Fault → Prop) (computation : Except Fault α) : Prop :=
  ∀ fault, computation = .error fault → P fault

namespace FaultsOnly

variable {α β : Type} {P Q : Fault → Prop}

theorem ok (a : α) : FaultsOnly P (.ok a : Except Fault α) :=
  nofun

/-- Two steps one after the other, of which the second is made with a result of the first. -/
theorem bind_of_eq_ok {first : Except Fault α} {next : α → Except Fault β} (h : FaultsOnly P first)
    (hnext : ∀ a, first = .ok a → FaultsOnly P (next a)) : FaultsOnly P (first >>= next) := by
  cases first with
  | error fault =>
    intro other hother
    cases hother
    exact h fault rfl
  | ok a => exact hnext a rfl

theorem bind {first : Except Fault α} {next : α → Except Fault β} (h : FaultsOnly P first)
    (hnext : ∀ a, FaultsOnly P (next a)) : FaultsOnly P (first >>= next) :=
  h.bind_of_eq_ok fun a _ => hnext a

/-- The fault of a computation, as that of another one. -/
theorem error {computation : Except Fault α} (h : FaultsOnly P computation) {fault : Fault}
    (hfault : computation = .error fault) : FaultsOnly P (.error fault : Except Fault β) := by
  intro other hother
  cases hother
  exact h fault hfault

theorem map {computation : Except Fault α} (h : FaultsOnly P computation) (f : α → β) :
    FaultsOnly P (computation.map f) := by
  cases computation with
  | error fault => exact h.error rfl
  | ok a => exact .ok (f a)

theorem mono {computation : Except Fault α} (h : FaultsOnly P computation)
    (hPQ : ∀ fault, P fault → Q fault) : FaultsOnly Q computation :=
  fun fault hfault => hPQ fault (h fault hfault)

end FaultsOnly

/-- The only fault that a computation ends with is a weight that does not fit. -/
def OnlyOverflows {α : Type} (computation : Except Fault α) : Prop :=
  FaultsOnly (· = .weightOverflow) computation

/-- Without an overflow there is a result. -/
theorem OnlyOverflows.exists_ok {α : Type} {computation : Except Fault α}
    (h : OnlyOverflows computation) (hno : computation ≠ .error .weightOverflow) :
    ∃ a, computation = .ok a := by
  cases computation with
  | error fault => exact absurd (congrArg Except.error (h fault rfl)) hno
  | ok a => exact ⟨a, rfl⟩

/-- A computation stops only at a clause that the store does not have or at a weight that does not fit. -/
def OnlyRefuses {α : Type} (computation : Except Fault α) : Prop :=
  FaultsOnly (fun fault => fault = .weightOverflow ∨ ∃ size index, fault = .unknownClause size index)
    computation

theorem OnlyOverflows.onlyRefuses {α : Type} {computation : Except Fault α}
    (h : OnlyOverflows computation) : OnlyRefuses computation :=
  h.mono fun _ => Or.inl

theorem ClauseStore.get_onlyRefuses (store : ClauseStore) (id : ClauseId) :
    OnlyRefuses (store.get id) := by
  rw [ClauseStore.get]
  split
  · exact .ok _
  · intro fault hfault
    cases hfault
    exact Or.inr ⟨_, _, rfl⟩

/-- Where everything fits there is no fault. -/
theorem Yields.ne_error {α : Type} {fits : Prop} {computation : Except Fault α} {P : α → Prop}
    (h : Yields fits computation P) (hfits : fits) (fault : Fault) : computation ≠ .error fault := by
  obtain ⟨a, ha⟩ := h.total hfits
  rw [ha]
  nofun

/-- Two sets of literals are determined when nothing overflows, and one is part of the other when what its
members satisfy says so. -/
theorem OnlyOverflows.exists_subset {first second : Except Fault LiteralSet} {fits fits' : Prop}
    {P Q : Nat → Prop} (h : OnlyOverflows first) (h' : OnlyOverflows second)
    (hP : Yields fits first fun set => ∀ i, set.contains i = true ↔ P i)
    (hQ : Yields fits' second fun set => ∀ i, set.contains i = true ↔ Q i) (hPQ : ∀ i, P i → Q i)
    (hno : first ≠ .error .weightOverflow) (hno' : second ≠ .error .weightOverflow) :
    ∃ set set', first = .ok set ∧ second = .ok set' ∧
      ∀ i, set.contains i = true → set'.contains i = true := by
  obtain ⟨set, hset⟩ := h.exists_ok hno
  obtain ⟨set', hset'⟩ := h'.exists_ok hno'
  refine ⟨set, set', hset, hset', fun i hi => ?_⟩
  have hi := (hP.sound _ hset i).1 hi
  exact (hQ.sound _ hset' i).2 (hPQ i hi)

namespace TermOrder

theorem compare_onlyOverflows (order : TermOrder) (s t : Term) : OnlyOverflows (order.compare s t) := by
  cases order with
  | kbo kbo => exact fun _ h => (Kbo.compare_eq_error_iff.1 h).1
  | custom comparison => exact .ok _

theorem anyGreater_onlyOverflows (order : TermOrder) (y : Term) (xs : List Term) :
    OnlyOverflows (order.anyGreater y xs) := by
  induction xs with
  | nil => exact .ok false
  | cons x xs ih =>
    refine (order.compare_onlyOverflows x y).bind fun c => ?_
    split
    · exact .ok true
    · exact ih

theorem dominates_onlyOverflows (order : TermOrder) (xs ys : List Term) :
    OnlyOverflows (order.dominates xs ys) := by
  induction ys with
  | nil => exact .ok true
  | cons y ys ih =>
    refine (order.anyGreater_onlyOverflows y xs).bind fun some => ?_
    split
    · exact ih
    · exact .ok false

theorem compareMultisets_onlyOverflows (order : TermOrder) (m n : List Term) :
    OnlyOverflows (order.compareMultisets m n) := by
  rw [compareMultisets]
  split
  · exact .ok _
  · refine (order.dominates_onlyOverflows _ _).bind fun above => ?_
    split
    · exact .ok _
    · refine (order.dominates_onlyOverflows _ _).bind fun below => ?_
      split
      · exact .ok _
      · exact .ok _

end TermOrder

theorem isBelowOther_onlyOverflows (order : TermOrder) (sameSign : Bool) (e : Literal × Nat)
    (ds : List (Literal × Nat)) : OnlyOverflows (isBelowOther order sameSign e ds) := by
  induction ds with
  | nil => exact .ok false
  | cons d ds ih =>
    rw [isBelowOther]
    split
    · exact ih
    · refine (order.compareMultisets_onlyOverflows _ _).bind fun c => ?_
      split
      · exact .ok true
      · exact ih

theorem eraseBelow_onlyOverflows (order : TermOrder) (sameSign : Bool) (all : List (Literal × Nat))
    (set : LiteralSet) (es : List (Literal × Nat)) :
    OnlyOverflows (eraseBelow order sameSign all set es) := by
  induction es generalizing set with
  | nil => exact .ok set
  | cons e es ih => exact (isBelowOther_onlyOverflows order sameSign e all).bind fun below => ih _

namespace Clause

theorem eligibleForResolution_onlyOverflows (clause : Clause) (order : TermOrder) (σ : Substitution)
    (scope : Nat) : OnlyOverflows (clause.eligibleForResolution order σ scope) :=
  eraseBelow_onlyOverflows order _ _ _ _

theorem eligibleForParamodulation_onlyOverflows (clause : Clause) (order : TermOrder) (σ : Substitution)
    (scope : Nat) : OnlyOverflows (clause.eligibleForParamodulation order σ scope) := by
  rw [eligibleForParamodulation]
  split
  · exact (clause.eligibleForResolution_onlyOverflows order σ scope).bind fun set => .ok _
  · exact .ok _

/-! ## Literals under two substitutions -/

/-- The literals under the substitution `τ` are an instance of those under `σ`. -/
def InstanceUnder (clause : Clause) (τ : Substitution) (scopeτ : Nat) (σ : Substitution)
    (scopeσ : Nat) : Prop :=
  ∃ θ : Nat → Term, clause.instanceLiterals τ scopeτ =
    (clause.instanceLiterals σ scopeσ).map (Literal.mapTerms (TermOver.bind θ))

/-- Under every substitution the literals are an instance of those of the clause itself. -/
theorem instanceUnder_empty {clause : Clause} (hclause : ∀ lit ∈ clause.literals, lit.WellFormed)
    (σ : Substitution) (scope scope' : Nat) : clause.InstanceUnder σ scope .empty scope' :=
  clause.exists_instanceLiterals_eq hclause σ scope

namespace InstanceUnder

variable {clause : Clause} {kbo : Kbo} {σ τ : Substitution} {scopeσ scopeτ : Nat}

/-- What is eligible on the instance is eligible before. -/
theorem eligible (h : clause.InstanceUnder τ scopeτ σ scopeσ) {i : Nat}
    (hi : clause.Eligible kbo (clause.instanceLiterals τ scopeτ) i) :
    clause.Eligible kbo (clause.instanceLiterals σ scopeσ) i := by
  obtain ⟨θ, hθ⟩ := h
  rw [hθ] at hi
  exact hi.of_instance

/-- If the weights of the instance fit, so do those before. -/
theorem literalFits (h : clause.InstanceUnder τ scopeτ σ scopeσ)
    (hfits : ∀ lit ∈ clause.instanceLiterals τ scopeτ, kbo.LiteralFits lit) :
    ∀ lit ∈ clause.instanceLiterals σ scopeσ, kbo.LiteralFits lit := by
  obtain ⟨θ, hθ⟩ := h
  intro lit hlit t ht
  have hinstance : kbo.Fits (t.bind θ) := by
    refine hfits (lit.mapTerms (TermOver.bind θ)) ?_ (t.bind θ) ?_
    · rw [hθ]
      exact List.mem_map_of_mem hlit
    · rw [Literal.terms_mapTerms]
      exact List.mem_map_of_mem ht
  -- replacing variables only adds weight
  rw [Kbo.Fits, kbo.exactWeight_bind θ t] at hinstance
  exact Nat.lt_of_le_of_lt (Nat.le_add_right _ _) hinstance

/-- A literal that another candidate is greater than is not eligible on any instance. -/
theorem not_eligible (h : clause.InstanceUnder τ scopeτ σ scopeσ) {i j : Nat} {lit other : Literal}
    (hij : j ≠ i) (hj : clause.candidates.contains j = true)
    (hlit : (clause.instanceLiterals σ scopeσ)[i]? = some lit)
    (hother : (clause.instanceLiterals σ scopeσ)[j]? = some other)
    (hsign : clause.selected.isEmpty = false → other.isPositive = lit.isPositive)
    (hgreater : kbo.LiteralGreater other lit) :
    ¬ clause.Eligible kbo (clause.instanceLiterals τ scopeτ) i := by
  intro hi
  refine (h.eligible hi).maximal lit hlit ⟨(other, j), mem_literalsIn.2 ⟨hother, hj⟩, hij, ?_, hgreater⟩
  intro hselected
  exact hsign (by simpa using hselected)

end InstanceUnder

end Clause

/-! ## Clauses of a store -/

namespace ClauseStore

variable {store : ClauseStore} {id : ClauseId} {clause : Clause}

theorem eligibleForResolution_eq (h : store.get id = .ok clause) (σ : Substitution) (scope : Nat) :
    store.eligibleForResolution id σ scope =
      clause.eligibleForResolution store.ordering σ scope := by
  rw [eligibleForResolution, h]
  rfl

theorem eligibleForParamodulation_eq (h : store.get id = .ok clause) (σ : Substitution) (scope : Nat) :
    store.eligibleForParamodulation id σ scope =
      clause.eligibleForParamodulation store.ordering σ scope := by
  rw [eligibleForParamodulation, h]
  rfl

/-- Eligibility shrinks under instantiation. For every Knuth–Bendix ordering, for a clause whose applications
store their numbers of arguments, and for every substitution and scope:

* if the weights of the instance fit, nothing overflows, neither on the instance nor on the clause;
* if nothing overflows, the literals to resolve upon on the instance are determined and are among those
  of the clause;
* the same holds of the literals that rewrite;
* a literal to which another candidate, of the same sign under a selection, is greater is not among the
  literals to resolve upon on this or any further instance. -/
theorem eligible_on_instance_subset {kbo : Kbo} (hordering : store.ordering = kbo)
    (hclause : store.get id = .ok clause) (hwellFormed : ∀ lit ∈ clause.literals, lit.WellFormed)
    (σ : Substitution) (scope : Nat) :
    ((∀ lit ∈ clause.instanceLiterals σ scope, kbo.LiteralFits lit) →
      (store.eligibleForResolution id σ scope ≠ .error .weightOverflow ∧
        store.eligibleForResolution id .empty 0 ≠ .error .weightOverflow) ∧
      store.eligibleForParamodulation id σ scope ≠ .error .weightOverflow ∧
        store.eligibleForParamodulation id .empty 0 ≠ .error .weightOverflow) ∧
    (store.eligibleForResolution id σ scope ≠ .error .weightOverflow →
      store.eligibleForResolution id .empty 0 ≠ .error .weightOverflow →
      ∃ onInstance onClause, store.eligibleForResolution id σ scope = .ok onInstance ∧
        store.eligibleForResolution id .empty 0 = .ok onClause ∧
        ∀ i, onInstance.contains i = true → onClause.contains i = true) ∧
    (store.eligibleForParamodulation id σ scope ≠ .error .weightOverflow →
      store.eligibleForParamodulation id .empty 0 ≠ .error .weightOverflow →
      ∃ onInstance onClause, store.eligibleForParamodulation id σ scope = .ok onInstance ∧
        store.eligibleForParamodulation id .empty 0 = .ok onClause ∧
        ∀ i, onInstance.contains i = true → onClause.contains i = true) ∧
    ∀ i j lit other, j ≠ i → clause.candidates.contains j = true →
      (clause.instanceLiterals σ scope)[i]? = some lit →
      (clause.instanceLiterals σ scope)[j]? = some other →
      (clause.selected.isEmpty = false → other.isPositive = lit.isPositive) →
      TermOrder.compareLiterals kbo lit other = .ok .lt →
      ∀ τ scopeτ, clause.InstanceUnder τ scopeτ σ scope →
        store.eligibleForResolution id τ scopeτ ≠ .error .weightOverflow →
        ∃ set, store.eligibleForResolution id τ scopeτ = .ok set ∧ set.contains i = false := by
  simp only [eligibleForResolution_eq hclause, eligibleForParamodulation_eq hclause, hordering]
  have hinstance : clause.InstanceUnder σ scope .empty 0 := clause.instanceUnder_empty hwellFormed σ _ _
  have hresolution := fun σ scope => clause.eligibleForResolution_yields kbo σ scope
  have hparamodulation := fun σ scope => clause.eligibleForParamodulation_yields kbo σ scope
  refine ⟨fun hfits => ?_, fun hσ hempty => ?_, fun hσ hempty => ?_, ?_⟩
  · have hfits' := hinstance.literalFits hfits
    exact ⟨⟨(hresolution σ scope).ne_error hfits _, (hresolution .empty 0).ne_error hfits' _⟩,
      (hparamodulation σ scope).ne_error hfits _, (hparamodulation .empty 0).ne_error hfits' _⟩
  · exact (clause.eligibleForResolution_onlyOverflows _ σ scope).exists_subset
      (clause.eligibleForResolution_onlyOverflows _ _ 0) (hresolution σ scope) (hresolution .empty 0)
      (fun i hi => hinstance.eligible hi) hσ hempty
  · refine (clause.eligibleForParamodulation_onlyOverflows _ σ scope).exists_subset
      (clause.eligibleForParamodulation_onlyOverflows _ _ 0) (hparamodulation σ scope)
      (hparamodulation .empty 0) ?_ hσ hempty
    -- selection and signs are those of the clause on every instance
    rintro i ⟨hselected, hpositive, hi⟩
    exact ⟨hselected, hpositive, hinstance.eligible hi⟩
  · intro i j lit other hij hj hlit hother hsign hless τ scopeτ hτ hno
    obtain ⟨set, hset⟩ := (clause.eligibleForResolution_onlyOverflows _ τ scopeτ).exists_ok hno
    refine ⟨set, hset, Bool.eq_false_iff.2 fun hi => ?_⟩
    have htells := (kbo.compareLiterals_yields lit other).sound _ hless
    have hgreater := (htells.eq_lt_iff (fun h => h.ne.symm) fun h => h.asymm).1 rfl
    exact hτ.not_eligible hij hj hlit hother hsign hgreater (((hresolution τ scopeτ).sound _ hset i).1 hi)

/-- The clause `p(x, y) ∨ p(a, y)`, of which no literal is greater than the other. -/
def twoAtoms : ClauseInput where
  literals := [.prop (.app ⟨0, 2⟩ [.var 0, .var 1]) true, .prop (.app ⟨0, 2⟩ [.const 0, .var 1]) true]
  provenance := .input .axiomatic

/-- A new store to which the clause was added. -/
def twoAtomsStore : ClauseStore :=
  ((ClauseStore.new (.kbo {}) (.preset .none)).create twoAtoms).1

theorem twoAtomsStore_eq :
    twoAtomsStore = (((ClauseStore.bare (.kbo {}) (.preset .none)).createNew
      { literals := [.verum], provenance := (Provenance.input .axiomatic).persist }
      [.verum]).1.createNew twoAtoms twoAtoms.literals).1 := by
  rw [twoAtomsStore, ClauseStore.create_new_eq_createNew _ _ (by decide) (by decide)]
  rfl

/-- Both literals of `p(x, y) ∨ p(a, y)` are eligible, and only the first one is when `x` is replaced by
`f(a)`; the second one stays dropped when `y` is replaced as well. -/
theorem eligible_on_instance_subset_twoAtoms :
    let σ : Substitution := ⟨[(⟨0, 0⟩, .app 1 [.const 0])]⟩
    let τ : Substitution := ⟨[(⟨0, 1⟩, .const 1), (⟨0, 0⟩, .app 1 [.const 0])]⟩
    (∃ onInstance onClause, twoAtomsStore.eligibleForResolution 1 σ 0 = .ok onInstance ∧
      twoAtomsStore.eligibleForResolution 1 .empty 0 = .ok onClause ∧
      (∀ i, onInstance.contains i = true → onClause.contains i = true) ∧
      onInstance.toList = [0] ∧ onClause.toList = [0, 1]) ∧
    ∃ set, twoAtomsStore.eligibleForResolution 1 τ 0 = .ok set ∧ set.contains 1 = false := by
  intro σ τ
  obtain ⟨clause, hclause, hliterals, hcandidates⟩ : ∃ clause,
      twoAtomsStore.get 1 = .ok clause ∧ clause.literals = twoAtoms.literals ∧
      clause.candidates = ⟨3⟩ := by
    rw [twoAtomsStore_eq]
    exact ⟨_, rfl, rfl, rfl⟩
  have hordering : twoAtomsStore.ordering = .kbo {} := by
    rw [twoAtomsStore_eq]
    rfl
  have hσ : twoAtomsStore.eligibleForResolution 1 σ 0 = .ok ⟨1⟩ := by
    rw [twoAtomsStore_eq]
    decide +kernel
  have hτ : twoAtomsStore.eligibleForResolution 1 τ 0 = .ok ⟨1⟩ := by
    rw [twoAtomsStore_eq]
    decide +kernel
  have hempty : twoAtomsStore.eligibleForResolution 1 .empty 0 = .ok ⟨3⟩ := by
    rw [twoAtomsStore_eq]
    decide +kernel
  have hinstance : clause.InstanceUnder τ 0 σ 0 := by
    refine ⟨fun _ => .const 1, ?_⟩
    rw [Clause.instanceLiterals, Clause.instanceLiterals, hliterals]
    decide +kernel
  obtain ⟨-, hresolution, -, hdropped⟩ :=
    eligible_on_instance_subset hordering hclause (by rw [hliterals]; decide) σ 0
  constructor
  · obtain ⟨onInstance, onClause, hon, hon', hsubset⟩ :=
      hresolution (by rw [hσ]; nofun) (by rw [hempty]; nofun)
    have heq : onInstance = ⟨1⟩ := Except.ok.inj (hon.symm.trans hσ)
    have heq' : onClause = ⟨3⟩ := Except.ok.inj (hon'.symm.trans hempty)
    exact ⟨onInstance, onClause, hon, hon', hsubset, by rw [heq]; decide, by rw [heq']; decide⟩
  · refine hdropped 1 0 (.prop (.app ⟨0, 2⟩ [.const 0, .var 0]) true)
      (.prop (.app ⟨0, 2⟩ [.app ⟨1, 1⟩ [.const 0], .var 0]) true) (by decide) ?_ ?_ ?_ ?_ ?_ τ 0
      hinstance (by rw [hτ]; nofun)
    · rw [hcandidates]
      decide
    · rw [Clause.instanceLiterals, hliterals]
      decide +kernel
    · rw [Clause.instanceLiterals, hliterals]
      decide +kernel
    · exact fun _ => rfl
    · decide +kernel

end ClauseStore

end GivenClause
