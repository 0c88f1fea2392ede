import GivenClause.Unify.Substitution

/-! # Unification

Arguments are unified from left to right under the bindings made so far. Where a side is no application
the substitution is applied and disagreements are removed: the leftmost place where the two terms
differ either is a clash of symbols or binds a variable, which is then replaced in both. Each binding
takes one variable out of both terms, so the number of variable occurrences bounds the number of
rounds.

* `disagreement` finds the leftmost difference of two terms;
* `unifyFrom` extends a substitution and also tells which bindings a failed attempt has made;
* `unify` unifies two terms of given scopes from scratch. -/

namespace GivenClause

/-- Why two terms do not unify. -/
inductive UnificationFailure where
  /-- A variable would have to stand for a term that contains it. -/
  | occursCheck
  /-- Two different symbols, or different numbers of arguments, meet. -/
  | clash
deriving DecidableEq, Repr

/-- The wording of a failure. -/
def UnificationFailure.message : UnificationFailure → String
  | .occursCheck => "occurs check failed"
  | .clash => "symbol clash"

/-- A place where two terms differ. -/
inductive Disagreement where
  /-- Two different symbols, or different numbers of arguments, meet. -/
  | clash
  /-- A variable meets a term other than itself. -/
  | binding (v : ScopedVar) (t : ScopedTerm)
deriving DecidableEq, Repr

mutual

/-- The leftmost place where two terms differ. Where two variables meet, the left one is reported. -/
def disagreement : ScopedTerm → ScopedTerm → Option Disagreement
  | .var v, t => if .var v = t then none else some (.binding v t)
  | .const c, .var w => some (.binding w (.const c))
  | .app f ss, .var w => some (.binding w (.app f ss))
  | .const c, .const d => if c = d then none else some .clash
  | .app f ss, .app g ts =>
    if f = g ∧ ss.length = ts.length then disagreementList ss ts else some .clash
  | .const _, .app _ _ => some .clash
  | .app _ _, .const _ => some .clash

/-- The leftmost place where two argument lists of equal length differ. -/
def disagreementList : List ScopedTerm → List ScopedTerm → Option Disagreement
  | s :: ss, t :: ts =>
    match disagreement s t with
    | some d => some d
    | none => disagreementList ss ts
  | _, _ => none

end

/-- What an attempt to unify leaves: the substitution with every binding that was made, and the
failure if there was one. -/
structure UnifyAttempt where
  /-- The substitution, extended as far as the attempt went. -/
  substitution : Substitution
  /-- Why the attempt failed, `none` if it succeeded. -/
  failure : Option UnificationFailure
deriving DecidableEq, Repr

/-- Removes at most `rounds` disagreements of two terms to which the substitution has been applied.
With no rounds left a variable still to bind counts as a clash. -/
def unifyApplied : (rounds : Nat) → (s t : ScopedTerm) → Substitution → UnifyAttempt
  | 0, s, t, σ =>
    match disagreement s t with
    | none => ⟨σ, none⟩
    | some _ => ⟨σ, some .clash⟩
  | rounds + 1, s, t, σ =>
    match disagreement s t with
    | none => ⟨σ, none⟩
    | some .clash => ⟨σ, some .clash⟩
    | some (.binding v u) =>
      if σ.occurs v u then ⟨σ, some .occursCheck⟩
      else unifyApplied rounds (.replace v u s) (.replace v u t) (σ.insert v u)

/-- Applies a substitution to two terms and removes their disagreements. There are no more rounds than
variable occurrences, since every binding takes a variable out of both terms. -/
def applyAndUnify (σ : Substitution) (s t : ScopedTerm) : UnifyAttempt :=
  let s := σ.apply s
  let t := σ.apply t
  unifyApplied (s.varOccurrences.length + t.varOccurrences.length) s t σ

mutual

/-- Extends a substitution so that it unifies `s` and `t`. -/
def unifyFrom (σ : Substitution) : (s t : ScopedTerm) → UnifyAttempt
  | .app f ss, .app g ts =>
    if f = g ∧ ss.length = ts.length then unifyArgs σ ss ts else ⟨σ, some .clash⟩
  | .app f ss, .var w => applyAndUnify σ (.app f ss) (.var w)
  | .app f ss, .const d => applyAndUnify σ (.app f ss) (.const d)
  | .var v, t => applyAndUnify σ (.var v) t
  | .const c, t => applyAndUnify σ (.const c) t

/-- Extends a substitution so that it unifies two argument lists of equal length, member by member. -/
def unifyArgs (σ : Substitution) : (ss ts : List ScopedTerm) → UnifyAttempt
  | s :: ss, t :: ts =>
    match unifyFrom σ s t with
    | ⟨σ, none⟩ => unifyArgs σ ss ts
    | ⟨σ, some failure⟩ => ⟨σ, some failure⟩
  | _, _ => ⟨σ, none⟩

end

/-- Unifies a term of one scope with a term of another. -/
def unify (s : Term) (scopeS : Nat) (t : Term) (scopeT : Nat) :
    Except UnificationFailure Substitution :=
  let attempt := unifyFrom .empty (s.lift scopeS) (t.lift scopeT)
  match attempt.failure with
  | none => .ok attempt.substitution
  | some failure => .error failure

end GivenClause
