import GivenClause.Proofs.Clause.StoreIntegrity
import GivenClause.Proofs.Unify.SharedRenaming

/-! # Instances that are renamings

The variables of a stored clause are numbered in order of first occurrence, and an instance numbers its
variables in the same way. So a substitution that only gives the variables of a clause other names makes
the clause itself: the numbers of the old variables and the numbers of their new names are the same.

* `Substitution.RenamesVars` says that variables end in pairwise different variables;
* `RenamesVars.order_instantiateLiterals` is the order in which an instance numbers the new names;
* `RenamesVars.instantiateLiterals_eq_self` gives the literals back;
* `ClauseStore.renaming_instance_eq_self` for the clauses of a store: their eligible literals and the
  instance that the store makes. -/

namespace GivenClause

open InsertionOrder

/-! ## Substitutions that rename -/

namespace Substitution

/-- Under a substitution the listed variables of a scope end in variables, different ones in different
ones. Variables without a binding end in themselves. -/
structure RenamesVars (σ : Substitution) (scope : Nat) (vars : List Nat) : Prop where
  /-- The bindings of every variable end in a variable. -/
  ends : ∀ x ∈ vars, (σ.apply (.var ⟨scope, x⟩)).isVar = true
  /-- No two variables end in the same one. -/
  distinct : ∀ x ∈ vars, ∀ y ∈ vars,
    σ.apply (.var ⟨scope, x⟩) = σ.apply (.var ⟨scope, y⟩) → x = y

instance (σ : Substitution) (scope : Nat) (vars : List Nat) : Decidable (σ.RenamesVars scope vars) :=
  decidable_of_iff
    ((∀ x ∈ vars, (σ.apply (.var ⟨scope, x⟩)).isVar = true) ∧
      ∀ x ∈ vars, ∀ y ∈ vars, σ.apply (.var ⟨scope, x⟩) = σ.apply (.var ⟨scope, y⟩) → x = y)
    ⟨fun h => ⟨h.1, h.2⟩, fun h => ⟨h.ends, h.distinct⟩⟩

/-- The variable in which the bindings of a variable end. Where they end in another term it is the variable
itself. -/
def lastVar (σ : Substitution) (v : ScopedVar) : ScopedVar :=
  match σ.apply (.var v) with
  | .var w => w
  | _ => v

theorem apply_eq_lastVar {σ : Substitution} {v : ScopedVar} (h : (σ.apply (.var v)).isVar = true) :
    σ.apply (.var v) = .var (σ.lastVar v) := by
  rw [lastVar]
  cases happly : σ.apply (.var v) with
  | var w => rfl
  | const c => simp [happly, TermOver.isVar] at h
  | app f args => simp [happly, TermOver.isVar] at h

/-- The empty substitution leaves every variable as it is. -/
theorem renamesVars_empty (scope : Nat) (vars : List Nat) : empty.RenamesVars scope vars where
  ends := fun _ _ => rfl
  distinct := by
    intro x _ y _ h
    injection h with h
    injection h

end Substitution

/-! ## Numbering the new names -/

theorem Literal.order_instantiate (σ : Substitution) (scope : Nat) (ρ : Renaming) (lit : Literal) :
    (lit.instantiate σ scope ρ).2.order =
      insertAll ρ.order (lit.terms.flatMap fun t => (σ.apply (t.lift scope)).varOccurrences) := by
  have hrun := congrArg Prod.snd (lit.instantiate_eq_instantiateAll σ scope ρ)
  rw [hrun, order_instantiateAll, InstanceCall.survivors, List.flatMap_map]
  rfl

/-- An instance numbers the variables of all terms in their order. -/
theorem order_instantiateLiterals (σ : Substitution) (scope : Nat) (ρ : Renaming)
    (literals : List Literal) :
    (instantiateLiterals σ scope ρ literals).2.order =
      insertAll ρ.order (literals.flatMap fun lit =>
        lit.terms.flatMap fun t => (σ.apply (t.lift scope)).varOccurrences) := by
  induction literals generalizing ρ with
  | nil => rfl
  | cons lit literals ih =>
    rw [List.flatMap_cons, insertAll_append, ← lit.order_instantiate]
    exact ih _

namespace Substitution.RenamesVars

variable {σ : Substitution} {scope : Nat}

/-- The variables of a term change to their new names one by one. -/
theorem varOccurrences_apply {vars : List Nat} (h : σ.RenamesVars scope vars) {t : Term}
    (ht : ∀ x ∈ TermOver.varOccurrences t, x ∈ vars) :
    (σ.apply (t.lift scope)).varOccurrences =
      (TermOver.varOccurrences t).map fun x => σ.lastVar ⟨scope, x⟩ := by
  rw [apply, TermOver.varOccurrences_bind, Term.lift, TermOver.varOccurrences_map, List.flatMap_map,
    List.map_eq_flatMap]
  -- each occurrence gives one occurrence, that of the new name
  refine List.flatMap_congr fun x hx => ?_
  show (σ.apply (.var ⟨scope, x⟩)).varOccurrences = _
  rw [apply_eq_lastVar (h.ends x (ht x hx))]
  rfl

/-- Different variables have different new names. -/
theorem injOn_lastVar {vars : List Nat} (h : σ.RenamesVars scope vars) :
    Set.InjOn (fun x => σ.lastVar ⟨scope, x⟩) {x | x ∈ vars} := by
  intro x hx y hy hxy
  refine h.distinct x hx y hy ?_
  rw [apply_eq_lastVar (h.ends x hx), apply_eq_lastVar (h.ends y hy)]
  exact congrArg TermOver.var hxy

/-- The new names are numbered in the order of the variables. -/
theorem order_instantiateLiterals {literals : List Literal}
    (h : σ.RenamesVars scope (literalVariables literals)) :
    (instantiateLiterals σ scope {} literals).2.order =
      (literalVariables literals).map fun x => σ.lastVar ⟨scope, x⟩ := by
  have hoccurrences : (literals.flatMap fun lit =>
        lit.terms.flatMap fun t => (σ.apply (t.lift scope)).varOccurrences) =
      (literals.flatMap Literal.varOccurrences).map fun x => σ.lastVar ⟨scope, x⟩ := by
    rw [List.map_flatMap]
    refine List.flatMap_congr fun lit hlit => ?_
    rw [Literal.varOccurrences, List.map_flatMap]
    refine List.flatMap_congr fun t ht => h.varOccurrences_apply fun x hx => ?_
    exact mem_literalVariables.2 ⟨lit, hlit, t, ht, hx⟩
  rw [GivenClause.order_instantiateLiterals, hoccurrences, literalVariables, literalVariablesAfter]
  refine @insertAll_map _ _ _ _ _ [] _ (h.injOn_lastVar.mono ?_)
  rintro x (hx | hx)
  · cases hx
  · exact mem_insertAll.2 (Or.inr hx)

/-- Literals whose variables are numbered in order of first occurrence are given back. -/
theorem instantiateLiterals_eq_self {literals : List Literal} {n : Nat}
    (hvars : literalVariables literals = List.range n) (hwf : ∀ lit ∈ literals, lit.WellFormed)
    (h : σ.RenamesVars scope (literalVariables literals)) :
    (instantiateLiterals σ scope {} literals).1 = literals := by
  set ρ := (instantiateLiterals σ scope {} literals).2 with hρ
  have horder : ρ.order = (literalVariables literals).map fun x => σ.lastVar ⟨scope, x⟩ :=
    h.order_instantiateLiterals
  -- the new name of a variable gets the number of the variable
  have hnumber : ∀ x ∈ literalVariables literals, σ.replacement scope ρ x = .var x := by
    intro x hx
    have hlast : ρ.number (σ.lastVar ⟨scope, x⟩) = x := by
      rw [Renaming.number, horder, idxOf_map_of_injOn h.injOn_lastVar hx, hvars]
      exact idxOf_range (List.mem_range.1 (hvars ▸ hx))
    show ρ.flatten (σ.apply (.var ⟨scope, x⟩)) = .var x
    rw [apply_eq_lastVar (h.ends x hx), Renaming.flatten, TermOver.map_var, hlast]
  rw [@instantiateLiterals_eq_map σ scope {} ρ literals List.prefix_rfl]
  refine (List.map_congr_left fun lit hlit => ?_).trans (List.map_id literals)
  refine (Literal.mapTerms_congr fun t ht => ?_).trans lit.mapTerms_bind_var
  rw [flatten_apply_lift σ scope ρ (hwf lit hlit t ht)]
  exact TermOver.bind_congr fun x hx => hnumber x (mem_literalVariables.2 ⟨lit, hlit, t, ht, hx⟩)

end Substitution.RenamesVars

/-! ## Clauses -/

namespace Clause.WellFormed

variable {clause : Clause} {σ : Substitution} {scope : Nat}

/-- A substitution that renames the variables of a clause gives its literals back. -/
theorem instantiateLiterals_eq_self (h : clause.WellFormed)
    (hwf : ∀ lit ∈ clause.literals, lit.WellFormed) (hσ : σ.RenamesVars scope clause.vars) :
    (instantiateLiterals σ scope {} clause.literals).1 = clause.literals := by
  rw [h.vars] at hσ
  exact hσ.instantiateLiterals_eq_self h.ordered hwf

theorem instanceLiterals_eq_self (h : clause.WellFormed)
    (hwf : ∀ lit ∈ clause.literals, lit.WellFormed) (hσ : σ.RenamesVars scope clause.vars) :
    clause.instanceLiterals σ scope = clause.literals := by
  rw [instanceLiterals, h.instantiateLiterals_eq_self hwf hσ, ite_self]

end Clause.WellFormed

/-- The eligible literals depend on the literals of the instance only. -/
theorem Clause.eligibleForResolution_congr {clause : Clause} (order : TermOrder) {σ τ : Substitution}
    {scope scope' : Nat} (h : clause.instanceLiterals σ scope = clause.instanceLiterals τ scope') :
    clause.eligibleForResolution order σ scope = clause.eligibleForResolution order τ scope' := by
  rw [eligibleForResolution, eligibleForResolution, h]

theorem Clause.eligibleForParamodulation_congr {clause : Clause} (order : TermOrder) {σ τ : Substitution}
    {scope scope' : Nat} (h : clause.instanceLiterals σ scope = clause.instanceLiterals τ scope') :
    clause.eligibleForParamodulation order σ scope = clause.eligibleForParamodulation order τ scope' := by
  rw [eligibleForParamodulation, eligibleForParamodulation, clause.eligibleForResolution_congr order h]

namespace ClauseStore

/-- The instance of a clause of the current epoch by a substitution that renames its variables is the clause,
and nothing but a counter changes. -/
theorem WellFormed.applySubstitution_eq_self {store : ClauseStore} (h : store.WellFormed) {id : ClauseId}
    {clause : Clause} (hget : store.get? id = some clause)
    (hwf : ∀ lit ∈ clause.literals, lit.WellFormed) {σ : Substitution} {scope : Nat}
    (hσ : σ.RenamesVars scope clause.vars) (hepoch : clause.epoch = store.epoch) :
    store.applySubstitution id σ scope =
      ({ store with stats := { store.stats with hits := store.stats.hits + 1 } }, .ok id) := by
  have hclause := h.clauses id clause hget
  -- the instance has the key of the clause, so the table leads to the clause
  have hknown : store.create
      { literals := clause.literals
        provenance := { clause.provenance with rule := "instantiate" }
        parents := [id] } =
      ({ store with stats := { store.stats with hits := store.stats.hits + 1 } }, .ok id) :=
    h.create_known hclause.short hget (by rw [Clause.key, keyFor, hclause.canonical, hepoch])
  rw [applySubstitution, get_eq_ok_iff.2 hget]
  dsimp only
  rw [hclause.instantiateLiterals_eq_self hwf hσ, hknown]
  exact if_pos rfl

/-- Instances up to renaming, for a clause of any reachable store whose applications store the number of their
arguments modulo 256. Under a substitution that takes the variables of the clause in a scope to pairwise different
variables, the literals of the instance are the literals of the clause. Hence:

* the shortcut for the empty substitution gives what the general computation gives;
* the eligible literals are those without a substitution;
* the store gives the clause itself as the instance, if it is of the current epoch, and no clause changes. -/
theorem renaming_instance_eq_self {ordering : TermOrder} {selector : Selector} {calls : List StoreCall}
    {id : ClauseId} {clause : Clause}
    (hget : ((new ordering selector).performAll calls).get? id = some clause)
    (hwf : ∀ lit ∈ clause.literals, lit.WellFormed) {σ : Substitution} {scope : Nat}
    (hσ : σ.RenamesVars scope clause.vars) :
    let store := (new ordering selector).performAll calls
    (instantiateLiterals σ scope {} clause.literals).1 = clause.literals ∧
    clause.instanceLiterals .empty scope = (instantiateLiterals .empty scope {} clause.literals).1 ∧
    clause.instanceLiterals σ scope = clause.instanceLiterals .empty scope ∧
    store.eligibleForResolution id σ scope = store.eligibleForResolution id .empty scope ∧
    store.eligibleForParamodulation id σ scope = store.eligibleForParamodulation id .empty scope ∧
    (∀ index, store.isMaximalLiteral id σ scope index = store.isMaximalLiteral id .empty scope index) ∧
    (clause.epoch = store.epoch →
      store.applySubstitution id σ scope =
        ({ store with stats := { store.stats with hits := store.stats.hits + 1 } }, .ok id)) := by
  intro store
  have hstore : store.WellFormed := wellFormed_performAll (wellFormed_new ordering selector) calls
  have hclause := hstore.clauses id clause hget
  have hempty := hclause.instantiateLiterals_eq_self hwf (Substitution.renamesVars_empty scope _)
  have hinstance : clause.instanceLiterals σ scope = clause.instanceLiterals .empty scope :=
    hclause.instanceLiterals_eq_self hwf hσ
  have hresolution : store.eligibleForResolution id σ scope = store.eligibleForResolution id .empty scope := by
    rw [eligibleForResolution_eq (get_eq_ok_iff.2 hget), eligibleForResolution_eq (get_eq_ok_iff.2 hget)]
    exact clause.eligibleForResolution_congr store.ordering hinstance
  have hparamodulation : store.eligibleForParamodulation id σ scope =
      store.eligibleForParamodulation id .empty scope := by
    rw [eligibleForParamodulation_eq (get_eq_ok_iff.2 hget),
      eligibleForParamodulation_eq (get_eq_ok_iff.2 hget)]
    exact clause.eligibleForParamodulation_congr store.ordering hinstance
  refine ⟨hclause.instantiateLiterals_eq_self hwf hσ, hempty.symm, hinstance, hresolution, hparamodulation,
    fun index => ?_, fun hepoch => hstore.applySubstitution_eq_self hget hwf hσ hepoch⟩
  rw [isMaximalLiteral, isMaximalLiteral, hresolution]

/-- One variable of `p(x, y) ∨ p(a, y)` is renamed through two bindings and the other one is free. -/
theorem renaming_instance_eq_self_twoAtoms :
    let σ : Substitution := ⟨[(⟨3, 0⟩, .var ⟨5, 7⟩), (⟨5, 7⟩, .var ⟨2, 9⟩)]⟩
    (instantiateLiterals σ 3 {} twoAtoms.literals).1 = twoAtoms.literals ∧
      twoAtomsStore.eligibleForResolution 1 σ 3 = twoAtomsStore.eligibleForResolution 1 .empty 3 ∧
      (twoAtomsStore.applySubstitution 1 σ 3).2 = .ok 1 ∧
      (twoAtomsStore.applySubstitution 1 σ 3).1.clauses = twoAtomsStore.clauses := by
  intro σ
  obtain ⟨clause, hget, hliterals, hvars, hepoch⟩ : ∃ clause,
      twoAtomsStore.get? 1 = some clause ∧ clause.literals = twoAtoms.literals ∧ clause.vars = [0, 1] ∧
        clause.epoch = twoAtomsStore.epoch := by
    rw [twoAtomsStore_eq]
    exact ⟨_, rfl, rfl, rfl, rfl⟩
  have hrun : (new (.kbo {}) (.preset .none)).performAll [.create twoAtoms] = twoAtomsStore := rfl
  have hresult := @renaming_instance_eq_self (.kbo {}) (.preset .none) [.create twoAtoms] 1 clause hget
    (by rw [hliterals]; decide) σ 3 (by rw [hvars]; decide)
  rw [hrun] at hresult
  obtain ⟨hsame, -, -, hresolution, -, -, happly⟩ := hresult
  rw [hliterals] at hsame
  rw [happly hepoch]
  exact ⟨hsame, hresolution, rfl, rfl⟩

end ClauseStore

end GivenClause
