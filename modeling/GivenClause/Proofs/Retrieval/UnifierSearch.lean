import GivenClause.Proofs.Retrieval.TermSearch
import GivenClause.Proofs.Unify.MostGeneral

/-! # Searching for unifiers

Where the variables of both sides stand for any term, a search finds the stored terms that become equal to
the query when every variable occurrence, on either side, is replaced by a term of its own. A unifier
replaces the occurrences of one variable alike, so no stored term that unifies with the query is missed.
Where a variable repeats, terms may be found that do not unify.

* `Term.Meets` says that two terms become equal in this way, `Matching.agrees_iff_meets` that a search
  decides it;
* `Term.meets_of_unify`: terms that unify meet;
* `DiscriminationTree.unifiable_exact` for the terms that may unify with a query. -/

namespace GivenClause

variable {α : Type}

/-! ## Terms that meet -/

/-- Every application that stores its number of arguments exactly stores it modulo 256. -/
theorem Term.ArityExact.wellFormed {t : Term} (h : t.ArityExact) : t.WellFormed := by
  intro e he f args heq
  have hcounts := h e he
  rw [heq, Term.countsArguments, decide_eq_true_eq] at hcounts
  rw [← hcounts]
  exact UInt8.ofNat_toNat.symm

namespace Term

/-- The terms become equal when every variable occurrence of either is replaced by a term of its own. -/
def Meets (t q : Term) : Prop :=
  ∃ u, t.Outlines u ∧ q.Outlines u

theorem outlines_self (t : Term) : t.Outlines t := by
  have h := t.outlines_bind .var
  rwa [TermOver.bind_id] at h

/-- Terms that some replacements of their variables make equal meet. -/
theorem meets_of_bind_eq {t q : Term} {θ η : Nat → Term} (h : t.bind θ = q.bind η) : t.Meets q :=
  ⟨t.bind θ, t.outlines_bind θ, h ▸ q.outlines_bind η⟩

theorem meets_var_left (x : Nat) (q : Term) : Meets (.var x) q :=
  ⟨q, outlines_var x q, q.outlines_self⟩

theorem meets_var_right (t : Term) (y : Nat) : Meets t (.var y) :=
  ⟨t, t.outlines_self, outlines_var y t⟩

theorem meets_const {c d : Nat} : Meets (.const c) (.const d) ↔ c = d := by
  constructor
  · rintro ⟨u, hc, hd⟩
    rw [outlines_const] at hc hd
    rw [hc] at hd
    exact TermOver.const.inj hd
  · rintro rfl
    exact ⟨_, outlines_self _, outlines_self _⟩

theorem not_meets_const_app {c : Nat} {g : FunctionSymbol} {ts : List Term} :
    ¬ Meets (.const c) (.app g ts) := by
  rintro ⟨u, hc, hg⟩
  rw [outlines_const] at hc
  obtain ⟨us, hu, -⟩ := outlines_app.1 hg
  rw [hc] at hu
  cases hu

theorem Meets.symm {t q : Term} (h : t.Meets q) : q.Meets t := by
  obtain ⟨u, ht, hq⟩ := h
  exact ⟨u, hq, ht⟩

/-- Argument lists become equal when their members do. -/
theorem forall₂_meets_iff {ss ts : List Term} :
    List.Forall₂ Meets ss ts ↔
      ∃ us, List.Forall₂ Outlines ss us ∧ List.Forall₂ Outlines ts us := by
  constructor
  · intro h
    induction h with
    | nil => exact ⟨[], .nil, .nil⟩
    | cons hfirst _ ih =>
      obtain ⟨u, hs, ht⟩ := hfirst
      obtain ⟨us, hss, hts⟩ := ih
      exact ⟨u :: us, .cons hs hss, .cons ht hts⟩
  · rintro ⟨us, hss, hts⟩
    induction hss generalizing ts with
    | nil =>
      cases hts
      exact .nil
    | cons hs _ ih =>
      cases hts with
      | cons ht hts => exact .cons ⟨_, hs, ht⟩ (ih hts)

theorem meets_app {f g : FunctionSymbol} {ss ts : List Term} :
    Meets (.app f ss) (.app g ts) ↔ f = g ∧ List.Forall₂ Meets ss ts := by
  rw [forall₂_meets_iff]
  constructor
  · rintro ⟨u, hf, hg⟩
    obtain ⟨us, rfl, hss⟩ := outlines_app.1 hf
    obtain ⟨us', heq, hts⟩ := outlines_app.1 hg
    cases heq
    exact ⟨rfl, us, hss, hts⟩
  · rintro ⟨rfl, us, hss, hts⟩
    exact ⟨.app f us, outlines_app.2 ⟨us, rfl, hss⟩, outlines_app.2 ⟨us, rfl, hts⟩⟩

end Term

/-- When the variables of both sides stand for any term, the terms agree that meet. -/
theorem Matching.agrees_iff_meets {t q : Term} : agrees ⟨true, true⟩ t q = true ↔ t.Meets q := by
  induction t using TermOver.induction generalizing q with
  | var x =>
    refine iff_of_true ?_ (Term.meets_var_left x q)
    cases q <;> rfl
  | const c =>
    cases q with
    | var y => exact iff_of_true rfl (Term.meets_var_right _ y)
    | const d => rw [agrees, decide_eq_true_eq, Term.meets_const]
    | app g ts => exact iff_of_false Bool.false_ne_true Term.not_meets_const_app
  | app f ss ih =>
    cases q with
    | var y => exact iff_of_true rfl (Term.meets_var_right _ y)
    | const d => exact iff_of_false Bool.false_ne_true fun h => Term.not_meets_const_app h.symm
    | app g ts =>
      rw [agrees, Bool.and_eq_true, decide_eq_true_eq, agreesList_iff fun s hs _ => ih s hs,
        Term.meets_app]

instance : DecidableRel Term.Meets := fun _ _ => decidable_of_iff _ Matching.agrees_iff_meets

/-! ## Terms that unify -/

/-- Terms that unify in some scopes meet. -/
theorem Term.meets_of_unify {t q : Term} {scope scope' : Nat} {σ : Substitution} (ht : t.ArityExact)
    (hq : q.ArityExact) (h : unify t scope q scope' = .ok σ) : t.Meets q := by
  have hdecides := unifyFrom_decides (t.lift scope) (q.lift scope') Substitution.acyclic_empty
  rw [unify_eq_ok_iff.1 h] at hdecides
  have happly : σ.apply (t.lift scope) = σ.apply (q.lift scope') :=
    (hdecides.mostGeneralUnifier rfl).apply_eq
  -- written as plain terms, with any numbering, both sides are replacements of their own variables
  have hflat := congrArg (Renaming.flatten {}) happly
  rw [flatten_apply_lift σ scope {} ht.wellFormed, flatten_apply_lift σ scope' {} hq.wellFormed] at hflat
  exact meets_of_bind_eq hflat

namespace DiscriminationTree

variable [DecidableEq α]

/-- Terms that may unify with a query are found exactly, up to repeated variables. After any calls whose
stored terms count their arguments exactly, and for any such query:

* the values found are those whose stored term becomes equal to the query when each variable occurrence of
  both is replaced by a term of its own, each value as often as it is stored with such a term;
* so a value is found whenever its stored term and the query unify, in whatever scopes. -/
theorem unifiable_exact {calls : List (TreeCall α)}
    (hcalls : ∀ t value, .insert t value ∈ calls → t.ArityExact) {q : Term} (hq : q.ArityExact) :
    ((empty.performAll calls).unifiable q).Perm
      (((TreeCall.recordedAfter calls).filter fun e => e.1.Meets q).map Prod.snd) ∧
    ∀ e ∈ TreeCall.recordedAfter calls, (∃ scope scope' σ, unify e.1 scope q scope' = .ok σ) →
      e.2 ∈ (empty.performAll calls).unifiable q := by
  have hperm : ((empty.performAll calls).unifiable q).Perm
      (((TreeCall.recordedAfter calls).filter fun e => e.1.Meets q).map Prod.snd) := by
    refine (search_performAll_perm ⟨true, true⟩ hcalls hq).trans (List.Perm.of_eq ?_)
    refine congrArg (List.map Prod.snd) (List.filter_congr fun e _ => ?_)
    rw [Bool.eq_iff_iff, Matching.agrees_iff_meets, decide_eq_true_eq]
  refine ⟨hperm, ?_⟩
  rintro e he ⟨scope, scope', σ, hunify⟩
  have hexact : e.1.ArityExact := hcalls _ _ (TreeCall.insert_mem_of_mem_recordedAfter he)
  refine hperm.symm.subset (List.mem_map_of_mem (List.mem_filter.2 ⟨he, ?_⟩))
  exact decide_eq_true (Term.meets_of_unify hexact hq hunify)

/-- Stores `f(x, x)`, twice `f(g(x), y)`, `f(a, a)`, `f(x, g(a))`, and `y`, and takes out one copy of
`f(g(x), y)` and, under another name of its variable, `f(x, g(a))`. -/
def nestedCalls : List (TreeCall Nat) :=
  [.insert (.app ⟨0, 2⟩ [.var 0, .var 0]) 1,
    .insert (.app ⟨0, 2⟩ [.app ⟨1, 1⟩ [.var 0], .var 1]) 2,
    .insert (.app ⟨0, 2⟩ [.app ⟨1, 1⟩ [.var 0], .var 1]) 2,
    .insert (.app ⟨0, 2⟩ [.const 0, .const 0]) 3,
    .insert (.app ⟨0, 2⟩ [.var 0, .app ⟨1, 1⟩ [.const 0]]) 4, .insert (.var 1) 5,
    .remove (.app ⟨0, 2⟩ [.app ⟨1, 1⟩ [.var 0], .var 1]) 2,
    .remove (.app ⟨0, 2⟩ [.var 7, .app ⟨1, 1⟩ [.const 0]]) 4]

/-- For the query `f(y, g(y))` the terms `y` and `f(g(x), y)` are found; the second shares a variable with the
query and unifies with it in another scope. Also `f(x, x)` is found, which the occurs check refuses. -/
theorem unifiable_exact_nestedCalls :
    let q : Term := .app ⟨0, 2⟩ [.var 1, .app ⟨1, 1⟩ [.var 1]]
    ((empty.performAll nestedCalls).unifiable q).Perm [5, 2, 1] ∧
      unify (.app ⟨0, 2⟩ [.var 0, .var 0]) 0 q 1 = .error .occursCheck ∧
      (unify (.app ⟨0, 2⟩ [.app ⟨1, 1⟩ [.var 0], .var 1]) 0 q 1).isOk = true ∧
      2 ∈ (empty.performAll nestedCalls).unifiable q := by
  intro q
  have hcalls : ∀ t value, TreeCall.insert t value ∈ nestedCalls → t.ArityExact := by
    intro t value h
    simp only [nestedCalls, List.mem_cons, TreeCall.insert.injEq, reduceCtorEq, List.not_mem_nil,
      or_false] at h
    rcases h with ⟨rfl, -⟩ | ⟨rfl, -⟩ | ⟨rfl, -⟩ | ⟨rfl, -⟩ | ⟨rfl, -⟩ | ⟨rfl, -⟩
    all_goals decide
  have hunify : (unify (.app ⟨0, 2⟩ [.app ⟨1, 1⟩ [.var 0], .var 1]) 0 q 1).isOk = true := by
    decide +kernel
  obtain ⟨hperm, hunifies⟩ := unifiable_exact hcalls (q := q) (by decide)
  refine ⟨hperm.trans (List.Perm.of_eq (by decide +kernel)), by decide +kernel, hunify, ?_⟩
  refine hunifies (.app ⟨0, 2⟩ [.app ⟨1, 1⟩ [.var 0], .var 1], 2) (by decide +kernel) ⟨0, 1, ?_⟩
  cases hresult : unify (.app ⟨0, 2⟩ [.app ⟨1, 1⟩ [.var 0], .var 1]) 0 q 1 with
  | error failure =>
    rw [hresult] at hunify
    cases hunify
  | ok σ => exact ⟨σ, rfl⟩

end DiscriminationTree

end GivenClause
