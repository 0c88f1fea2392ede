import GivenClause.Proofs.Unify.Solutions

/-! # Following chains of bindings

To apply a substitution, and to look for a variable behind a term, one goes on from every bound variable to
what it is bound to. Nothing in these recursions limits how long they go on. Their runs are told here
without any bound, as finite derivations: there is a derivation exactly when the recursion ends. Where no
chain of bindings is cyclic both recursions end on every term, with what the bounded definitions compute.

* `Substitution.Applies` and `Substitution.Searches` are the runs;
* `Substitution.Acyclic.chainInduction` is induction on terms that goes on behind bound variables;
* `Substitution.Acyclic.applies_iff` and `Substitution.Acyclic.searches_iff`: both recursions end, with the
  application and the answer of the occurs check. -/

namespace GivenClause

namespace Substitution

/-! ## Runs -/

mutual

/-- A run that follows the bindings of every variable of a term to their end. -/
inductive Applies (σ : Substitution) : ScopedTerm → ScopedTerm → Prop where
  /-- A variable without a binding stays. -/
  | free {v : ScopedVar} (hv : σ.find? v = none) : Applies σ (.var v) (.var v)
  /-- A bound variable gives what its binding gives. -/
  | bound {v : ScopedVar} {t u : ScopedTerm} (hv : σ.find? v = some t) (ht : Applies σ t u) :
      Applies σ (.var v) u
  /-- A constant stays. -/
  | const (c : Nat) : Applies σ (.const c) (.const c)
  /-- The arguments of an application are gone through one by one. -/
  | app {f : Nat} {args results : List ScopedTerm} (hargs : AppliesList σ args results) :
      Applies σ (.app f args) (.app f results)

/-- A run that goes through an argument list. -/
inductive AppliesList (σ : Substitution) : List ScopedTerm → List ScopedTerm → Prop where
  /-- No argument is left. -/
  | nil : AppliesList σ [] []
  /-- The first argument, then the others. -/
  | cons {t u : ScopedTerm} {ts us : List ScopedTerm} (ht : Applies σ t u)
      (hts : AppliesList σ ts us) : AppliesList σ (t :: ts) (u :: us)

end

mutual

/-- A run that looks for the variable `v` in a term and behind its bound variables, with its answer. -/
inductive Searches (σ : Substitution) (v : ScopedVar) : ScopedTerm → Bool → Prop where
  /-- The variable is found. -/
  | same : Searches σ v (.var v) true
  /-- Behind another variable without a binding there is nothing. -/
  | free {w : ScopedVar} (hne : w ≠ v) (hw : σ.find? w = none) : Searches σ v (.var w) false
  /-- Behind another variable the search goes on in its binding. -/
  | bound {w : ScopedVar} {t : ScopedTerm} {found : Bool} (hne : w ≠ v) (hw : σ.find? w = some t)
      (ht : Searches σ v t found) : Searches σ v (.var w) found
  /-- There is no variable in a constant. -/
  | const (c : Nat) : Searches σ v (.const c) false
  /-- The arguments of an application are searched. -/
  | app {f : Nat} {args : List ScopedTerm} {found : Bool} (hargs : SearchesList σ v args found) :
      Searches σ v (.app f args) found

/-- A run that looks for the variable `v` in an argument list. It stops at the first argument with the
variable. -/
inductive SearchesList (σ : Substitution) (v : ScopedVar) : List ScopedTerm → Bool → Prop where
  /-- No argument is left. -/
  | nil : SearchesList σ v [] false
  /-- The first argument has the variable. -/
  | found {t : ScopedTerm} {ts : List ScopedTerm} (ht : Searches σ v t true) :
      SearchesList σ v (t :: ts) true
  /-- The first argument does not have the variable. -/
  | next {t : ScopedTerm} {ts : List ScopedTerm} {found : Bool} (ht : Searches σ v t false)
      (hts : SearchesList σ v ts found) : SearchesList σ v (t :: ts) found

end

/-! ## Induction along chains -/

/-- Induction on terms in which a bound variable is covered by its binding. -/
theorem Acyclic.chainInduction {σ : Substitution} (hσ : σ.Acyclic) {motive : ScopedTerm → Prop}
    (free : ∀ v, σ.find? v = none → motive (.var v))
    (bound : ∀ v t, σ.find? v = some t → motive t → motive (.var v))
    (const : ∀ c, motive (.const c))
    (app : ∀ f args, (∀ a ∈ args, motive a) → motive (.app f args)) (t : ScopedTerm) : motive t := by
  obtain ⟨rank, hrank⟩ := hσ
  -- a term follows from its variables, and a variable from those of its binding, which have smaller ranks
  have hterm : ∀ t : ScopedTerm, (∀ v ∈ t.varOccurrences, motive (.var v)) → motive t := by
    intro t
    induction t using TermOver.induction with
    | var v => exact fun h => h v List.mem_cons_self
    | const c => exact fun _ => const c
    | app f args ih =>
      intro h
      refine app f args fun a ha => ih a ha fun v hv => h v ?_
      exact TermOver.mem_varOccurrences_app.2 ⟨a, ha, hv⟩
  refine hterm t fun v hv => ?_
  clear hv
  induction hn : rank v using Nat.strongRecOn generalizing v with
  | ind n ih =>
    subst hn
    cases hfind : σ.find? v with
    | none => exact free v hfind
    | some u =>
      refine bound v u hfind (hterm u fun w hw => ?_)
      exact ih (rank w) (hrank v w ⟨u, hfind, hw⟩) w rfl

/-! ## Application ends -/

@[simp] theorem apply_const (σ : Substitution) (c : Nat) : σ.apply (.const c) = .const c := rfl

@[simp] theorem apply_app (σ : Substitution) (f : Nat) (args : List ScopedTerm) :
    σ.apply (.app f args) = .app f (args.map σ.apply) :=
  TermOver.bind_app _ f args

/-- The run through an argument list ends if the runs through its members do. -/
theorem appliesList_iff {σ : Substitution} {ts us : List ScopedTerm}
    (h : ∀ t ∈ ts, ∀ u, σ.Applies t u ↔ u = σ.apply t) :
    σ.AppliesList ts us ↔ us = ts.map σ.apply := by
  induction ts generalizing us with
  | nil =>
    constructor
    · rintro ⟨⟩
      rfl
    · rintro rfl
      exact .nil
  | cons t ts ih =>
    have hhead := h t List.mem_cons_self
    have htail : ∀ us, σ.AppliesList ts us ↔ us = ts.map σ.apply :=
      fun us => ih fun t ht => h t (List.mem_cons_of_mem _ ht)
    constructor
    · rintro (_ | ⟨ht, hts⟩)
      rw [(hhead _).1 ht, (htail _).1 hts, List.map_cons]
    · rintro rfl
      exact .cons ((hhead _).2 rfl) ((htail _).2 rfl)

/-- Applying an acyclic substitution ends on every term, with the one result that is computed. -/
theorem Acyclic.applies_iff {σ : Substitution} (hσ : σ.Acyclic) (t u : ScopedTerm) :
    σ.Applies t u ↔ u = σ.apply t := by
  induction t using hσ.chainInduction generalizing u with
  | free v hv =>
    rw [apply_var_of_free hv]
    constructor
    · rintro (_ | ⟨hv', _⟩)
      · rfl
      · rw [hv] at hv'
        cases hv'
    · rintro rfl
      exact .free hv
  | bound v t hv ih =>
    rw [hσ.apply_var_of_bound hv, ← ih]
    constructor
    · rintro (hv' | ⟨hv', ht⟩)
      · rw [hv] at hv'
        cases hv'
      · rw [hv] at hv'
        cases hv'
        exact ht
    · exact .bound hv
  | const c =>
    constructor
    · rintro ⟨⟩
      rfl
    · rintro rfl
      exact .const c
  | app f args ih =>
    rw [apply_app]
    constructor
    · rintro ⟨⟩
      next hargs => rw [(appliesList_iff ih).1 hargs]
    · rintro rfl
      exact .app ((appliesList_iff ih).2 rfl)

/-! ## The occurs check ends -/

theorem reaches_const (σ : Substitution) (v : ScopedVar) (depth c : Nat) :
    σ.reaches v depth (.const c) = false := by
  cases depth <;> rfl

theorem reaches_app (σ : Substitution) (v : ScopedVar) (depth f : Nat) (args : List ScopedTerm) :
    σ.reaches v depth (.app f args) = args.any (σ.reaches v depth) := by
  cases depth <;> simp [reaches, List.any_flatMap]

/-- Searching one step further behind a term than the chains of its variables go changes nothing. -/
theorem reaches_succ {σ : Substitution} {rank : ScopedVar → Nat}
    (hrank : ∀ v w, σ.Step v w → rank w < rank v) (v : ScopedVar) {t : ScopedTerm} {depth : Nat}
    (hdepth : ∀ w ∈ t.varOccurrences, σ.chainBound rank w ≤ depth) :
    σ.reaches v (depth + 1) t = σ.reaches v depth t := by
  induction depth generalizing t with
  | zero =>
    rw [reaches, reaches, Bool.eq_iff_iff, List.any_eq_true, List.any_eq_true]
    refine exists_congr fun w => and_congr_right fun hw => ?_
    cases hfind : σ.find? w with
    | none => rw [Bool.or_false]
    | some u =>
      -- a chain from a bound variable has a step
      have hpos := chainBound_pos hfind rank
      have hle := hdepth w hw
      omega
  | succ depth ih =>
    rw [reaches, reaches, Bool.eq_iff_iff, List.any_eq_true, List.any_eq_true]
    refine exists_congr fun w => and_congr_right fun hw => ?_
    cases hfind : σ.find? w with
    | none => rfl
    | some u =>
      dsimp only
      rw [ih fun x hx => ?_]
      have hlt := chainBound_lt hfind (hrank w x ⟨u, hfind, hx⟩)
      have hle := hdepth w hw
      omega

theorem occurs_var_of_free {σ : Substitution} {w : ScopedVar} (hw : σ.find? w = none)
    (v : ScopedVar) : σ.occurs v (.var w) = decide (w = v) := by
  rw [occurs]
  cases σ.size <;> simp [reaches, hw]

/-- Behind a bound variable the search goes on in its binding. -/
theorem Acyclic.occurs_var_of_bound {σ : Substitution} (hσ : σ.Acyclic) {w : ScopedVar}
    {t : ScopedTerm} (hw : σ.find? w = some t) (v : ScopedVar) :
    σ.occurs v (.var w) = (decide (w = v) || σ.occurs v t) := by
  obtain ⟨rank, hrank⟩ := hσ
  have hpos := chainBound_pos hw rank
  have hle := σ.chainBound_le_size rank w
  obtain ⟨depth, hdepth⟩ : ∃ depth, σ.size = depth + 1 := ⟨σ.size - 1, by omega⟩
  have hsucc : σ.reaches v (depth + 1) t = σ.reaches v depth t := by
    refine reaches_succ hrank v fun x hx => ?_
    have hlt := chainBound_lt hw (hrank w x ⟨t, hw, hx⟩)
    omega
  rw [occurs, occurs, hdepth, hsucc, reaches]
  simp [hw]

/-- The run through an argument list ends if the runs through its members do. -/
theorem searchesList_iff {σ : Substitution} {v : ScopedVar} {ts : List ScopedTerm} {found : Bool}
    (h : ∀ t ∈ ts, ∀ found, σ.Searches v t found ↔ found = σ.occurs v t) :
    σ.SearchesList v ts found ↔ found = ts.any (σ.occurs v) := by
  induction ts generalizing found with
  | nil =>
    constructor
    · rintro ⟨⟩
      rfl
    · rintro rfl
      exact .nil
  | cons t ts ih =>
    have hhead := h t List.mem_cons_self
    have htail : ∀ found, σ.SearchesList v ts found ↔ found = ts.any (σ.occurs v) :=
      fun found => ih fun t ht => h t (List.mem_cons_of_mem _ ht)
    rw [List.any_cons]
    constructor
    · rintro (_ | ht | ⟨ht, hts⟩)
      · rw [← (hhead _).1 ht, Bool.true_or]
      · rw [← (hhead _).1 ht, Bool.false_or, (htail _).1 hts]
    · rintro rfl
      cases hfound : σ.occurs v t with
      | true => exact .found ((hhead _).2 hfound.symm)
      | false => exact .next ((hhead _).2 hfound.symm) ((htail _).2 rfl)

/-- Looking for a variable under an acyclic substitution ends on every term, with the answer of the occurs
check. -/
theorem Acyclic.searches_iff {σ : Substitution} (hσ : σ.Acyclic) (v : ScopedVar) (t : ScopedTerm)
    (found : Bool) : σ.Searches v t found ↔ found = σ.occurs v t := by
  induction t using hσ.chainInduction generalizing found with
  | free w hw =>
    rw [occurs_var_of_free hw]
    constructor
    · rintro (_ | ⟨hne, _⟩ | ⟨_, hw', _⟩)
      · simp
      · simp [hne]
      · rw [hw] at hw'
        cases hw'
    · rintro rfl
      by_cases h : w = v
      · subst h
        simpa using Searches.same
      · simpa [h] using Searches.free h hw
  | bound w t hw ih =>
    rw [hσ.occurs_var_of_bound hw]
    constructor
    · rintro (_ | ⟨_, hw'⟩ | ⟨hne, hw', ht⟩)
      · simp
      · rw [hw] at hw'
        cases hw'
      · rw [hw] at hw'
        cases hw'
        simpa [hne] using (ih _).1 ht
    · rintro rfl
      by_cases h : w = v
      · subst h
        simpa using Searches.same
      · simpa [h] using Searches.bound h hw ((ih _).2 rfl)
  | const c =>
    rw [occurs, reaches_const]
    constructor
    · rintro ⟨⟩
      rfl
    · rintro rfl
      exact .const c
  | app f args ih =>
    rw [occurs, reaches_app]
    constructor
    · rintro ⟨⟩
      next hargs => exact (searchesList_iff ih).1 hargs
    · rintro rfl
      exact .app ((searchesList_iff ih).2 rfl)

end Substitution

end GivenClause
