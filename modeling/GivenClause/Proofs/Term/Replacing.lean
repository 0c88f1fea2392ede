import Mathlib.Data.List.Basic
import GivenClause.Literal.Basic

/-! # Laws of replacing and renaming

Replacing variables by terms composes, depends on the variables that occur and on nothing else, and
variables of the result are variables of what was put in. Renaming composes and is determined in the
same way.

* `TermOver.bind_bind`, `TermOver.bind_congr`, `TermOver.varOccurrences_bind` for replacing;
* `TermOver.ne_bind_of_mem`: no replacement makes a variable equal to a larger term that contains it;
* `TermOver.varOccurrences_map`, `TermOver.map_congr`, `TermOver.map_map` for renaming;
* `TermOver.mem_subterms_of_at?` and `Term.wellFormed_app` for subterms;
* `Literal.terms_mapTerms` and its companions for literals. -/

namespace GivenClause

namespace TermOver

variable {ν φ ν' φ' ν'' φ'' : Type}

/-! ## Replacing -/

@[simp] theorem bind_var (σ : ν → TermOver ν' φ) (v : ν) : (var v : TermOver ν φ).bind σ = σ v := rfl

@[simp] theorem bind_const (σ : ν → TermOver ν' φ) (c : Nat) :
    (const c : TermOver ν φ).bind σ = const c := rfl

@[simp] theorem bind_app (σ : ν → TermOver ν' φ) (f : φ) (args : List (TermOver ν φ)) :
    (app f args).bind σ = app f (args.map (bind σ)) := by
  rw [bind, bindList_eq_map]

/-- A variable of an argument is a variable of the application. -/
theorem mem_varOccurrences_app {f : φ} {args : List (TermOver ν φ)} {v : ν} :
    v ∈ (app f args).varOccurrences ↔ ∃ a ∈ args, v ∈ a.varOccurrences := by
  rw [varOccurrences_app, List.mem_flatMap]

/-- Replacing every variable by itself changes nothing. -/
@[simp] theorem bind_id (t : TermOver ν φ) : t.bind var = t := by
  induction t with
  | var v => rfl
  | const c => rfl
  | app f args ih =>
    rw [bind_app, List.map_congr_left ih, List.map_id']

/-- Two replacements one after the other are one. -/
theorem bind_bind (σ : ν → TermOver ν' φ) (τ : ν' → TermOver ν'' φ) (t : TermOver ν φ) :
    (t.bind σ).bind τ = t.bind fun v => (σ v).bind τ := by
  induction t with
  | var v => rfl
  | const c => rfl
  | app f args ih =>
    rw [bind_app, bind_app, bind_app, List.map_map]
    exact congrArg (app f) (List.map_congr_left ih)

/-- Replacements give the same term exactly when they agree on the variables that occur. -/
theorem bind_eq_bind_iff {σ τ : ν → TermOver ν' φ} {t : TermOver ν φ} :
    t.bind σ = t.bind τ ↔ ∀ v ∈ t.varOccurrences, σ v = τ v := by
  induction t with
  | var v => simp
  | const c => simp
  | app f args ih =>
    rw [bind_app, bind_app, app.injEq, List.map_inj_left]
    constructor
    · rintro ⟨-, h⟩ v hv
      obtain ⟨a, ha, hva⟩ := mem_varOccurrences_app.1 hv
      exact (ih a ha).1 (h a ha) v hva
    · intro h
      exact ⟨rfl, fun a ha => (ih a ha).2 fun v hv => h v (mem_varOccurrences_app.2 ⟨a, ha, hv⟩)⟩

theorem bind_congr {σ τ : ν → TermOver ν' φ} {t : TermOver ν φ}
    (h : ∀ v ∈ t.varOccurrences, σ v = τ v) : t.bind σ = t.bind τ :=
  bind_eq_bind_iff.2 h

/-- The variables of the result are those of what was put in. -/
theorem varOccurrences_bind (σ : ν → TermOver ν' φ) (t : TermOver ν φ) :
    (t.bind σ).varOccurrences = t.varOccurrences.flatMap fun v => (σ v).varOccurrences := by
  induction t with
  | var v => simp
  | const c => simp
  | app f args ih =>
    rw [bind_app, varOccurrences_app, varOccurrences_app, List.flatMap_map, List.flatMap_assoc]
    exact List.flatMap_congr ih

theorem mem_varOccurrences_bind {σ : ν → TermOver ν' φ} {t : TermOver ν φ} {w : ν'} :
    w ∈ (t.bind σ).varOccurrences ↔ ∃ v ∈ t.varOccurrences, w ∈ (σ v).varOccurrences := by
  rw [varOccurrences_bind, List.mem_flatMap]

/-! ## Sizes under replacing -/

theorem size_le_sizeList {t : TermOver ν φ} {ts : List (TermOver ν φ)} (h : t ∈ ts) :
    t.size ≤ sizeList ts := by
  induction ts with
  | nil => cases h
  | cons head tail ih =>
    rw [sizeList]
    rcases List.mem_cons.1 h with rfl | h
    · omega
    · have hle := ih h
      omega

/-- What an argument's variable is replaced by is smaller than the application. -/
theorem size_lt_size_bind_app {σ : ν → TermOver ν' φ} {f : φ} {args : List (TermOver ν φ)} {v : ν}
    (hargs : ∀ a ∈ args, v ∈ a.varOccurrences → (σ v).size ≤ (a.bind σ).size)
    (hv : v ∈ (app f args).varOccurrences) : (σ v).size < ((app f args).bind σ).size := by
  obtain ⟨a, ha, hva⟩ := mem_varOccurrences_app.1 hv
  have hle := hargs a ha hva
  have hmem := size_le_sizeList (List.mem_map_of_mem (f := bind σ) ha)
  rw [bind_app, size]
  omega

/-- What a variable is replaced by is no larger than the whole. -/
theorem size_le_size_bind {σ : ν → TermOver ν' φ} {t : TermOver ν φ} {v : ν}
    (hv : v ∈ t.varOccurrences) : (σ v).size ≤ (t.bind σ).size := by
  induction t with
  | var w =>
    rw [varOccurrences_var, List.mem_singleton] at hv
    subst hv
    exact Nat.le_refl _
  | const c => cases hv
  | app f args ih => exact Nat.le_of_lt (size_lt_size_bind_app ih hv)

/-- Nothing makes a variable equal to a larger term that contains it. -/
theorem ne_bind_of_mem {σ : ν → TermOver ν φ} {t : TermOver ν φ} {v : ν}
    (hv : v ∈ t.varOccurrences) (hne : t ≠ var v) : σ v ≠ t.bind σ := by
  intro h
  cases t with
  | var w =>
    rw [varOccurrences_var, List.mem_singleton] at hv
    exact hne (congrArg _ hv.symm)
  | const c => cases hv
  | app f args =>
    have hlt := size_lt_size_bind_app (fun a _ => size_le_size_bind (σ := σ)) hv
    rw [← h] at hlt
    exact Nat.lt_irrefl _ hlt

/-! ## Renaming -/

@[simp] theorem map_var (fv : ν → ν') (ff : φ → Nat → φ') (v : ν) :
    (var v : TermOver ν φ).map fv ff = var (fv v) := rfl

@[simp] theorem map_const (fv : ν → ν') (ff : φ → Nat → φ') (c : Nat) :
    (const c : TermOver ν φ).map fv ff = const c := rfl

@[simp] theorem map_app (fv : ν → ν') (ff : φ → Nat → φ') (f : φ) (args : List (TermOver ν φ)) :
    (app f args).map fv ff = app (ff f args.length) (args.map (map fv ff)) := by
  rw [map, mapList_eq_map]

theorem varOccurrences_map (fv : ν → ν') (ff : φ → Nat → φ') (t : TermOver ν φ) :
    (t.map fv ff).varOccurrences = t.varOccurrences.map fv := by
  induction t with
  | var v => rfl
  | const c => rfl
  | app f args ih =>
    rw [map_app, varOccurrences_app, varOccurrences_app, List.flatMap_map, List.map_flatMap]
    exact List.flatMap_congr ih

/-- Renaming depends on the variables that occur and on nothing else. -/
theorem map_congr {fv fv' : ν → ν'} {ff : φ → Nat → φ'} {t : TermOver ν φ}
    (h : ∀ v ∈ t.varOccurrences, fv v = fv' v) : t.map fv ff = t.map fv' ff := by
  induction t with
  | var v => exact congrArg var (h v List.mem_cons_self)
  | const c => rfl
  | app f args ih =>
    rw [map_app, map_app]
    refine congrArg (app (ff f args.length)) (List.map_congr_left fun a ha => ih a ha ?_)
    exact fun v hv => h v (mem_varOccurrences_app.2 ⟨a, ha, hv⟩)

/-- Renaming every variable and symbol to itself changes nothing. -/
theorem map_id (t : TermOver ν φ) : t.map (fun v => v) (fun f _ => f) = t := by
  induction t with
  | var v => rfl
  | const c => rfl
  | app f args ih =>
    rw [map_app, List.map_congr_left ih, List.map_id']

/-- Two renamings one after the other are one. -/
theorem map_map (fv : ν → ν') (ff : φ → Nat → φ') (gv : ν' → ν'') (gf : φ' → Nat → φ'')
    (t : TermOver ν φ) :
    (t.map fv ff).map gv gf = t.map (gv ∘ fv) fun f count => gf (ff f count) count := by
  induction t with
  | var v => rfl
  | const c => rfl
  | app f args ih =>
    rw [map_app, map_app, map_app, List.length_map, List.map_map]
    exact congrArg _ (List.map_congr_left ih)

/-! ## Subterms -/

theorem walkFrom_eq_map {args : List (TermOver ν φ)} (path : Path) (i : Nat)
    (h : ∀ a ∈ args, ∀ path, a.walk path = a.subterms.map fun e => (path ++ e.1, e.2)) :
    walkFrom path i args = (walkFrom [] i args).map fun e => (path ++ e.1, e.2) := by
  induction args generalizing i with
  | nil => rfl
  | cons t ts ih =>
    obtain ⟨ht, hts⟩ := List.forall_mem_cons.1 h
    rw [walkFrom, walkFrom, List.map_append, ht, ht, List.map_map, ih (i + 1) hts]
    simp only [Function.comp_def, List.nil_append, List.append_assoc]

/-- The path that a walk carries along stands in front of every path that it lists. -/
theorem walk_eq_map (t : TermOver ν φ) (path : Path) :
    t.walk path = t.subterms.map fun e => (path ++ e.1, e.2) := by
  induction t generalizing path with
  | var v => simp [subterms, walk]
  | const c => simp [subterms, walk]
  | app f args ih =>
    rw [subterms, walk, walk, List.map_cons, List.append_nil, walkFrom_eq_map path 0 ih]

@[simp] theorem subterms_app (f : φ) (args : List (TermOver ν φ)) :
    (app f args).subterms = ([], app f args) :: walkFrom [] 0 args := rfl

/-- The paths into an argument are those into the term itself, with the index of the argument in front. -/
theorem walkFrom_nil_cons (i : Nat) (t : TermOver ν φ) (ts : List (TermOver ν φ)) :
    walkFrom [] i (t :: ts) =
      t.subterms.map (fun e => (i :: e.1, e.2)) ++ walkFrom [] (i + 1) ts := by
  rw [walkFrom, walk_eq_map]
  rfl

theorem mem_walkFrom_nil {e : Path × TermOver ν φ} {i : Nat} {args : List (TermOver ν φ)} :
    e ∈ walkFrom [] i args ↔
      ∃ j a, args[j]? = some a ∧ ∃ d ∈ a.subterms, e = ((i + j) :: d.1, d.2) := by
  induction args generalizing i with
  | nil => simp [walkFrom]
  | cons t ts ih =>
    rw [walkFrom_nil_cons, List.mem_append, ih, List.mem_map]
    constructor
    · rintro (⟨d, hd, rfl⟩ | ⟨j, a, ha, d, hd, rfl⟩)
      · exact ⟨0, t, rfl, d, hd, rfl⟩
      · exact ⟨j + 1, a, ha, d, hd, by rw [Nat.add_assoc, Nat.add_comm 1 j]⟩
    · rintro ⟨j, a, ha, d, hd, rfl⟩
      cases j with
      | zero =>
        cases ha
        exact Or.inl ⟨d, hd, rfl⟩
      | succ j => exact Or.inr ⟨j, a, ha, d, hd, by rw [Nat.add_assoc, Nat.add_comm 1 j]⟩

/-- The subterms of an application are itself and those of its arguments. -/
theorem mem_subterms_app {e : Path × TermOver ν φ} {f : φ} {args : List (TermOver ν φ)} :
    e ∈ (app f args).subterms ↔ e = ([], app f args) ∨
      ∃ i a, args[i]? = some a ∧ ∃ d ∈ a.subterms, e = (i :: d.1, d.2) := by
  rw [subterms_app, List.mem_cons, mem_walkFrom_nil]
  simp only [Nat.zero_add]

theorem nil_mem_subterms (t : TermOver ν φ) : ([], t) ∈ t.subterms := by
  cases t <;> simp [subterms, walk]

/-- What a path leads to is listed with that path. -/
theorem mem_subterms_of_at? {t u : TermOver ν φ} {path : Path} (h : t.at? path = some u) :
    (path, u) ∈ t.subterms := by
  induction path generalizing t with
  | nil =>
    rw [at?_nil, Option.some.injEq] at h
    subst h
    exact t.nil_mem_subterms
  | cons i path ih =>
    cases t with
    | var v => cases h
    | const c => cases h
    | app f args =>
      rw [at?] at h
      split at h
      · next arg harg => exact mem_subterms_app.2 (Or.inr ⟨i, arg, harg, (path, u), ih h, rfl⟩)
      · cases h

end TermOver

/-- Whether an application stores the number of its arguments; other terms store nothing. -/
def Term.arityFits : Term → Bool
  | .app f args => f.arity = args.length.toUInt8
  | _ => true

instance : DecidablePred Term.WellFormed := fun t =>
  decidable_of_iff (t.subterms.all fun e => Term.arityFits e.2) <| by
    rw [List.all_eq_true]
    refine forall₂_congr fun e _ => ⟨?_, fun h => ?_⟩
    · rintro h f args heq
      rw [heq] at h
      exact of_decide_eq_true h
    · cases heq : e.2 with
      | var x => rfl
      | const c => rfl
      | app f args => exact decide_eq_true (h f args heq)

/-- An application is well formed when it stores the number of its arguments, modulo 256, and they
are well formed. -/
theorem Term.wellFormed_app {f : FunctionSymbol} {args : List Term} :
    Term.WellFormed (.app f args) ↔
      f.arity = args.length.toUInt8 ∧ ∀ a ∈ args, Term.WellFormed a := by
  constructor
  · intro h
    refine ⟨h _ (TermOver.nil_mem_subterms _) f args rfl, fun a ha d hd g ts heq => ?_⟩
    obtain ⟨i, hi⟩ := List.mem_iff_getElem?.1 ha
    exact h _ (TermOver.mem_subterms_app.2 (Or.inr ⟨i, a, hi, d, hd, rfl⟩)) g ts heq
  · rintro ⟨harity, hargs⟩ e he g ts heq
    obtain rfl | ⟨i, a, hi, d, hd, rfl⟩ := TermOver.mem_subterms_app.1 he
    · cases heq
      exact harity
    · exact hargs a (List.mem_of_getElem? hi) d hd g ts heq

/-! ## Literals -/

namespace Literal

theorem terms_mapTerms (f : Term → Term) (lit : Literal) :
    (lit.mapTerms f).terms = lit.terms.map f := by
  cases lit <;> rfl

theorem isPositive_mapTerms (f : Term → Term) (lit : Literal) :
    (lit.mapTerms f).isPositive = lit.isPositive := by
  cases lit <;> rfl

theorem mem_orderingTerms {lit : Literal} {t : Term} : t ∈ lit.orderingTerms ↔ t ∈ lit.terms := by
  rw [orderingTerms]
  split
  · exact Iff.rfl
  · rw [List.mem_append, or_self]

theorem orderingTerms_mapTerms (f : Term → Term) (lit : Literal) :
    (lit.mapTerms f).orderingTerms = lit.orderingTerms.map f := by
  rw [orderingTerms, orderingTerms, isPositive_mapTerms, terms_mapTerms]
  split
  · rfl
  · rw [List.map_append]

/-- What is done to a literal depends on its terms. -/
theorem mapTerms_congr {f g : Term → Term} {lit : Literal} (h : ∀ t ∈ lit.terms, f t = g t) :
    lit.mapTerms f = lit.mapTerms g := by
  cases lit with
  | equation lhs rhs positive =>
    rw [mapTerms, mapTerms, h lhs List.mem_cons_self, h rhs (by simp [terms, sides])]
  | prop atom positive => rw [mapTerms, mapTerms, h atom List.mem_cons_self]
  | verum => rfl
  | falsum => rfl

theorem mapTerms_mapTerms (f g : Term → Term) (lit : Literal) :
    (lit.mapTerms f).mapTerms g = lit.mapTerms (g ∘ f) := by
  cases lit <;> rfl

/-- Replacing every variable by itself changes nothing. -/
@[simp] theorem mapTerms_bind_var (lit : Literal) :
    lit.mapTerms (TermOver.bind TermOver.var) = lit := by
  cases lit <;> simp [mapTerms]

end Literal

end GivenClause
