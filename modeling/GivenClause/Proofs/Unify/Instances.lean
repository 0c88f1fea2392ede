import GivenClause.Clause.Eligibility
import GivenClause.Proofs.Data.Lists
import GivenClause.Proofs.Term.Replacing

/-! # Instances as replacements

Instantiating a sequence of literals numbers the surviving variables as it goes. Numbers never change
once they are given, so the whole sequence is written with the last numbering. For well formed terms it
is then one replacement of variables by terms.

* `Renaming.flatten_eq_of_isPrefix`: a later numbering writes a term in the same way;
* `instantiateLiterals_eq_map`: the literals of an instance, written with any later numbering;
* `Clause.exists_instanceLiterals_eq`: an instance of a clause is a replacement. -/

namespace GivenClause

open InsertionOrder

/-! ## Numberings -/

namespace Renaming

/-- A later numbering writes a term in the same way. -/
theorem flatten_eq_of_isPrefix {ρ ρ' : Renaming} (h : ρ.order <+: ρ'.order) {t : ScopedTerm}
    (ht : ∀ v ∈ t.varOccurrences, v ∈ ρ.order) : ρ'.flatten t = ρ.flatten t :=
  TermOver.map_congr fun v hv => idxOf_eq_of_isPrefix h (ht v hv)

theorem isPrefix_extend (ρ : Renaming) (t : ScopedTerm) : ρ.order <+: (ρ.extend t).order :=
  isPrefix_insertAll ρ.order t.varOccurrences

theorem mem_extend {ρ : Renaming} {t : ScopedTerm} {v : ScopedVar} :
    v ∈ (ρ.extend t).order ↔ v ∈ ρ.order ∨ v ∈ t.varOccurrences :=
  mem_insertAll

/-- Nothing is numbered anew where every variable has its number. -/
theorem extend_eq_self {ρ : Renaming} {t : ScopedTerm} (h : ∀ v ∈ t.varOccurrences, v ∈ ρ.order) :
    ρ.extend t = ρ := by
  rw [extend, insertAll_eq_self h]

end Renaming

/-! ## Instances -/

theorem isPrefix_instantiate (σ : Substitution) (scope : Nat) (ρ : Renaming) (t : Term) :
    ρ.order <+: (instantiate σ scope ρ t).2.order :=
  ρ.isPrefix_extend _

/-- An instance written with any later numbering. -/
theorem instantiate_eq_flatten {σ : Substitution} {scope : Nat} {ρ later : Renaming} {t : Term}
    (h : (instantiate σ scope ρ t).2.order <+: later.order) :
    (instantiate σ scope ρ t).1 = later.flatten (σ.apply (t.lift scope)) :=
  (Renaming.flatten_eq_of_isPrefix h fun _ hv => Renaming.mem_extend.2 (Or.inr hv)).symm

theorem Literal.isPrefix_instantiate (σ : Substitution) (scope : Nat) (ρ : Renaming)
    (lit : Literal) : ρ.order <+: (lit.instantiate σ scope ρ).2.order := by
  cases lit with
  | equation lhs rhs positive =>
    exact (GivenClause.isPrefix_instantiate σ scope ρ lhs).trans
      (GivenClause.isPrefix_instantiate σ scope _ rhs)
  | prop atom positive => exact GivenClause.isPrefix_instantiate σ scope ρ atom
  | verum => exact List.prefix_rfl
  | falsum => exact List.prefix_rfl

theorem Literal.instantiate_eq_mapTerms {σ : Substitution} {scope : Nat} {ρ later : Renaming}
    {lit : Literal} (h : (lit.instantiate σ scope ρ).2.order <+: later.order) :
    (lit.instantiate σ scope ρ).1 =
      lit.mapTerms fun t => later.flatten (σ.apply (t.lift scope)) := by
  cases lit with
  | equation lhs rhs positive =>
    have hleft := instantiate_eq_flatten
      ((GivenClause.isPrefix_instantiate σ scope (GivenClause.instantiate σ scope ρ lhs).2 rhs).trans h)
    have hright := instantiate_eq_flatten h
    exact congrArg₂ (Literal.equation · · positive) hleft hright
  | prop atom positive => exact congrArg (Literal.prop · positive) (instantiate_eq_flatten h)
  | verum => rfl
  | falsum => rfl

theorem isPrefix_instantiateLiterals (σ : Substitution) (scope : Nat) (ρ : Renaming)
    (literals : List Literal) :
    ρ.order <+: (instantiateLiterals σ scope ρ literals).2.order := by
  induction literals generalizing ρ with
  | nil => exact List.prefix_rfl
  | cons lit literals ih => exact (lit.isPrefix_instantiate σ scope ρ).trans (ih _)

/-- The literals of an instance written with any later numbering. -/
theorem instantiateLiterals_eq_map {σ : Substitution} {scope : Nat} {ρ later : Renaming}
    {literals : List Literal}
    (h : (instantiateLiterals σ scope ρ literals).2.order <+: later.order) :
    (instantiateLiterals σ scope ρ literals).1 =
      literals.map (Literal.mapTerms fun t => later.flatten (σ.apply (t.lift scope))) := by
  induction literals generalizing ρ with
  | nil => rfl
  | cons lit literals ih =>
    have hhead := Literal.instantiate_eq_mapTerms
      ((isPrefix_instantiateLiterals σ scope (lit.instantiate σ scope ρ).2 literals).trans h)
    show (lit.instantiate σ scope ρ).1 :: _ = _ :: _
    rw [hhead, ih h]

/-! ## Instances as replacements -/

/-- A substitution read in one scope and with one numbering: what each variable is replaced by. -/
def Substitution.replacement (σ : Substitution) (scope : Nat) (ρ : Renaming) (x : Nat) : Term :=
  ρ.flatten (σ.resolve σ.size ⟨scope, x⟩)

/-- Applying a substitution to a well formed term and numbering its variables is a replacement. -/
theorem flatten_apply_lift (σ : Substitution) (scope : Nat) (ρ : Renaming) {t : Term}
    (ht : t.WellFormed) :
    ρ.flatten (σ.apply (t.lift scope)) = t.bind (σ.replacement scope ρ) := by
  rw [Substitution.apply, Renaming.flatten, Term.lift]
  induction t using TermOver.induction with
  | var x => rfl
  | const c => rfl
  | app f args ih =>
    obtain ⟨harity, hargs⟩ := Term.wellFormed_app.1 ht
    rw [TermOver.map_app, TermOver.bind_app, TermOver.map_app, TermOver.bind_app, List.length_map,
      List.length_map, List.map_map, List.map_map, ← harity]
    exact congrArg (TermOver.app f) (List.map_congr_left fun a ha => ih a ha (hargs a ha))

/-- Every application in the terms of a literal stores the number of its arguments, modulo 256. -/
def Literal.WellFormed (lit : Literal) : Prop :=
  ∀ t ∈ lit.terms, t.WellFormed

instance : DecidablePred Literal.WellFormed := fun lit =>
  inferInstanceAs (Decidable (∀ t ∈ lit.terms, t.WellFormed))

/-- An instance of a clause is a replacement of its variables. -/
theorem Clause.exists_instanceLiterals_eq {clause : Clause}
    (hclause : ∀ lit ∈ clause.literals, lit.WellFormed) (σ : Substitution) (scope : Nat) :
    ∃ θ : Nat → Term,
      clause.instanceLiterals σ scope = clause.literals.map (Literal.mapTerms (TermOver.bind θ)) := by
  rw [instanceLiterals]
  split
  · -- nothing is replaced
    refine ⟨TermOver.var, ?_⟩
    rw [List.map_congr_left fun lit _ => lit.mapTerms_bind_var, List.map_id']
  · set ρ := (instantiateLiterals σ scope {} clause.literals).2
    refine ⟨σ.replacement scope ρ, ?_⟩
    rw [@instantiateLiterals_eq_map σ scope {} ρ clause.literals List.prefix_rfl]
    refine List.map_congr_left fun lit hlit => Literal.mapTerms_congr fun t ht => ?_
    exact flatten_apply_lift σ scope ρ (hclause lit hlit t ht)

end GivenClause
