import Mathlib.Data.List.Basic
import GivenClause.Proofs.Data.Lists
import GivenClause.Proofs.Term.Replacing
import GivenClause.Unify.Substitution

/-! # Solutions of triangular substitutions

A substitution in triangular form is a system of equations, one for each bound variable. A replacement of
all variables by terms solves it when it makes both sides of every equation equal. Where no chain of
bindings is cyclic, applying the substitution solves the system, leaves no bound variable behind, and
every solution goes through it.

* `Substitution.Solves` is the property of being a solution;
* `Substitution.Acyclic.apply_var_of_bound` and `Substitution.Acyclic.apply_var_of_free` are the equations
  of application, `Substitution.Acyclic.find?_eq_none_of_mem_apply` says that it goes to the end;
* `Substitution.Solves.apply_bind`: every solution goes through the application;
* `Substitution.Acyclic.insert` and `Substitution.solves_insert`: binding one more variable. -/

namespace GivenClause

namespace Substitution

/-! ## Bindings -/

theorem lookup_filter_ne {v w : ScopedVar} (h : w ≠ v) (bindings : List (ScopedVar × ScopedTerm)) :
    (bindings.filter fun b => b.1 ≠ v).lookup w = bindings.lookup w := by
  induction bindings with
  | nil => rfl
  | cons b bindings ih =>
    obtain ⟨u, t⟩ := b
    by_cases hu : u = v
    · subst hu
      rw [List.filter_cons_of_neg (by simp), ih, List.lookup_cons, beq_false_of_ne h]
    · rw [List.filter_cons_of_pos (by simpa using hu), List.lookup_cons, List.lookup_cons, ih]

/-- A new binding is found, and the others are found as before. -/
theorem find?_insert (σ : Substitution) (v w : ScopedVar) (t : ScopedTerm) :
    (σ.insert v t).find? w = if w = v then some t else σ.find? w := by
  rw [find?, insert, List.lookup_cons]
  split
  · next h =>
    rw [beq_iff_eq] at h
    rw [if_pos h]
  · next h =>
    rw [beq_eq_false_iff_ne] at h
    rw [if_neg h, lookup_filter_ne h]
    rfl

theorem mem_bindings_of_find? {σ : Substitution} {v : ScopedVar} {t : ScopedTerm}
    (h : σ.find? v = some t) : (v, t) ∈ σ.bindings :=
  mem_of_lookup_eq_some h

/-! ## Application -/

/-- How many bindings belong to variables of at most the rank of `v`: a bound on the length of a chain
from `v`. -/
def chainBound (σ : Substitution) (rank : ScopedVar → Nat) (v : ScopedVar) : Nat :=
  (σ.bindings.filter fun b => rank b.1 ≤ rank v).length

theorem chainBound_le_size (σ : Substitution) (rank : ScopedVar → Nat) (v : ScopedVar) :
    σ.chainBound rank v ≤ σ.size :=
  List.length_filter_le _ _

/-- A chain from a bound variable has at least one step. -/
theorem chainBound_pos {σ : Substitution} {v : ScopedVar} {t : ScopedTerm}
    (ht : σ.find? v = some t) (rank : ScopedVar → Nat) : 0 < σ.chainBound rank v :=
  List.length_pos_of_mem (List.mem_filter.2 ⟨mem_bindings_of_find? ht, by simp⟩)

/-- The bound drops along a chain. -/
theorem chainBound_lt {σ : Substitution} {rank : ScopedVar → Nat} {v w : ScopedVar} {t : ScopedTerm}
    (ht : σ.find? v = some t) (h : rank w < rank v) :
    σ.chainBound rank w < σ.chainBound rank v := by
  have hfilter : σ.bindings.filter (fun b => rank b.1 ≤ rank w) =
      (σ.bindings.filter fun b => rank b.1 ≤ rank v).filter fun b => rank b.1 ≤ rank w := by
    rw [List.filter_filter]
    refine List.filter_congr fun b _ => ?_
    rw [← Bool.decide_and]
    exact decide_eq_decide.2 ⟨fun hb => ⟨hb, Nat.le_trans hb (Nat.le_of_lt h)⟩, And.left⟩
  rw [chainBound, chainBound, hfilter, List.length_filter_lt_length_iff_exists]
  refine ⟨(v, t), List.mem_filter.2 ⟨mem_bindings_of_find? ht, by simp⟩, ?_⟩
  simpa using h

/-- Following a chain further than its bound changes nothing. -/
theorem resolve_eq_resolve {σ : Substitution} {rank : ScopedVar → Nat}
    (hrank : ∀ v w, σ.Step v w → rank w < rank v) {v : ScopedVar} {d e : Nat}
    (hd : σ.chainBound rank v ≤ d) (he : σ.chainBound rank v ≤ e) :
    σ.resolve d v = σ.resolve e v := by
  induction d generalizing v e with
  | zero =>
    cases hfind : σ.find? v with
    | none => cases e <;> simp [resolve, hfind]
    | some t =>
      have hpos := chainBound_pos hfind rank
      omega
  | succ d ih =>
    cases hfind : σ.find? v with
    | none => cases e <;> simp [resolve, hfind]
    | some t =>
      have hpos := chainBound_pos hfind rank
      obtain ⟨e, rfl⟩ : ∃ e', e = e' + 1 := ⟨e - 1, by omega⟩
      -- one step along the chain leaves both depths above the smaller bound
      rw [resolve, resolve, hfind]
      refine TermOver.bind_congr fun w hw => ?_
      have hlt := chainBound_lt hfind (hrank v w ⟨t, hfind, hw⟩)
      exact ih (by omega) (by omega)

/-- A variable that is not bound stays. -/
theorem apply_var_of_free {σ : Substitution} {v : ScopedVar} (h : σ.find? v = none) :
    σ.apply (.var v) = .var v := by
  show σ.resolve σ.size v = .var v
  cases σ.size <;> simp [resolve, h]

/-- A term without bound variables stays. -/
theorem apply_eq_self {σ : Substitution} {t : ScopedTerm}
    (h : ∀ v ∈ t.varOccurrences, σ.find? v = none) : σ.apply t = t := by
  conv_rhs => rw [← t.bind_id]
  exact TermOver.bind_congr fun v hv => apply_var_of_free (h v hv)

namespace Acyclic

variable {σ : Substitution}

/-- A bound variable stands for what its binding stands for. -/
theorem apply_var_of_bound (h : σ.Acyclic) {v : ScopedVar} {t : ScopedTerm}
    (ht : σ.find? v = some t) : σ.apply (.var v) = σ.apply t := by
  obtain ⟨rank, hrank⟩ := h
  have hbound := σ.chainBound_le_size rank
  show σ.resolve σ.size v = t.bind (σ.resolve σ.size)
  rw [resolve_eq_resolve hrank (hbound v) (Nat.le_trans (hbound v) (Nat.le_succ _)), resolve, ht]

/-- Application goes to the end: what remains is not bound. -/
theorem find?_eq_none_of_mem_apply (h : σ.Acyclic) {t : ScopedTerm} {w : ScopedVar}
    (hw : w ∈ (σ.apply t).varOccurrences) : σ.find? w = none := by
  obtain ⟨v, -, hv⟩ := TermOver.mem_varOccurrences_bind.1 hw
  obtain ⟨rank, hrank⟩ := id h
  -- along the chain from `v`
  induction hn : rank v using Nat.strongRecOn generalizing v with
  | ind n ih =>
    subst hn
    change w ∈ (σ.apply (.var v)).varOccurrences at hv
    cases hfind : σ.find? v with
    | none =>
      rw [apply_var_of_free hfind, TermOver.varOccurrences_var, List.mem_singleton] at hv
      rw [hv, hfind]
    | some u =>
      rw [h.apply_var_of_bound hfind] at hv
      obtain ⟨x, hx, hwx⟩ := TermOver.mem_varOccurrences_bind.1 hv
      exact ih (rank x) (hrank v x ⟨u, hfind, hx⟩) x hwx rfl

/-- Applying twice is applying once. -/
theorem apply_apply (h : σ.Acyclic) (t : ScopedTerm) : σ.apply (σ.apply t) = σ.apply t :=
  apply_eq_self fun _ hv => h.find?_eq_none_of_mem_apply hv

end Acyclic

/-! ## Solutions -/

/-- A replacement of all variables that makes every bound variable equal to its binding. -/
def Solves (θ : ScopedVar → ScopedTerm) (σ : Substitution) : Prop :=
  ∀ v t, σ.find? v = some t → θ v = t.bind θ

theorem acyclic_empty : empty.Acyclic :=
  ⟨fun _ => 0, fun _ _ ⟨_, h, _⟩ => nomatch h⟩

theorem solves_empty (θ : ScopedVar → ScopedTerm) : Solves θ .empty :=
  fun _ _ h => nomatch h

/-- Applying a substitution solves it. -/
theorem Acyclic.solves {σ : Substitution} (h : σ.Acyclic) : Solves (fun v => σ.apply (.var v)) σ :=
  fun _ _ ht => h.apply_var_of_bound ht

/-- Every solution goes through the application. -/
theorem Solves.apply_bind {θ : ScopedVar → ScopedTerm} {σ : Substitution} (h : Solves θ σ)
    (hσ : σ.Acyclic) (u : ScopedTerm) : (σ.apply u).bind θ = u.bind θ := by
  obtain ⟨rank, hrank⟩ := id hσ
  rw [apply, TermOver.bind_bind]
  refine TermOver.bind_congr fun v hv => ?_
  -- along the chain from `v`, which need not occur in `u` any more
  clear hv
  induction hn : rank v using Nat.strongRecOn generalizing v with
  | ind n ih =>
    subst hn
    change (σ.apply (.var v)).bind θ = θ v
    cases hfind : σ.find? v with
    | none => rw [apply_var_of_free hfind, TermOver.bind_var]
    | some t =>
      rw [hσ.apply_var_of_bound hfind, h v t hfind, apply, TermOver.bind_bind]
      exact TermOver.bind_congr fun w hw => ih (rank w) (hrank v w ⟨t, hfind, hw⟩) w rfl

/-! ## Binding one more variable -/

/-- In a term without bound variables the occurs check looks for the variable itself. -/
theorem occurs_iff {σ : Substitution} {v : ScopedVar} {u : ScopedTerm}
    (hu : ∀ w ∈ u.varOccurrences, σ.find? w = none) :
    σ.occurs v u = true ↔ v ∈ u.varOccurrences := by
  rw [occurs]
  cases σ.size with
  | zero => simp [reaches]
  | succ n =>
    rw [reaches, List.any_eq_true]
    constructor
    · rintro ⟨w, hw, h⟩
      rw [hu w hw, Bool.or_false, decide_eq_true_eq] at h
      exact h ▸ hw
    · intro h
      exact ⟨v, h, by simp⟩

/-- A solution of one more binding solves the others and that binding. -/
theorem solves_insert {θ : ScopedVar → ScopedTerm} {σ : Substitution} {v : ScopedVar}
    {u : ScopedTerm} (hv : σ.find? v = none) :
    Solves θ (σ.insert v u) ↔ Solves θ σ ∧ θ v = u.bind θ := by
  constructor
  · intro h
    refine ⟨fun w t ht => h w t ?_, h v u ?_⟩
    · rw [find?_insert, if_neg, ht]
      rintro rfl
      rw [hv] at ht
      cases ht
    · rw [find?_insert, if_pos rfl]
  · rintro ⟨h, hvu⟩ w t ht
    rw [find?_insert] at ht
    split at ht
    · next heq =>
      cases ht
      rw [heq, hvu]
    · exact h w t ht

/-- No chain becomes cyclic when a free variable is bound to a term of other free variables. -/
theorem Acyclic.insert {σ : Substitution} (h : σ.Acyclic) {v : ScopedVar} {u : ScopedTerm}
    (hu : ∀ w ∈ u.varOccurrences, σ.find? w = none) (hvu : v ∉ u.varOccurrences) :
    (σ.insert v u).Acyclic := by
  obtain ⟨rank, hrank⟩ := h
  -- free variables at the bottom, `v` above them, and then those that were bound before
  refine ⟨fun w => if w = v then 1 else if σ.find? w = none then 0 else rank w + 2, ?_⟩
  rintro w x ⟨t, ht, hx⟩
  rw [find?_insert] at ht
  split at ht
  · next heq =>
    cases ht
    have hxv : x ≠ v := fun hxv => hvu (hxv ▸ hx)
    simp [heq, hxv, hu x hx]
  · next hne =>
    have hstep := hrank w x ⟨t, ht, hx⟩
    simp only [if_neg hne, ht]
    split
    · simp
    · split
      · simp
      · simpa using hstep

end Substitution

end GivenClause
