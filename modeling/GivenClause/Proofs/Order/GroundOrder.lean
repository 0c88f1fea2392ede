import GivenClause.Proofs.Order.ComparisonLaws

/-! # The term order is total on ground terms

Without variables the variable condition always holds, so weights and then heads decide between any two
terms that differ in them. Terms of one weight and one head are applications of one function, and the
argument lists have one weight as well. Since every term weighs something, neither list is then a proper
beginning of the other, whatever arities are stored: the lists differ at some place, and the arguments there
decide.

* `Kbo.argsGreater_or_argsGreater`: different argument lists of one weight have a first difference;
* `Kbo.greater_or_greater_of_isGround`: one of two different ground terms is greater;
* `Kbo.compare_total_on_ground` says so of the comparison in 64-bit arithmetic. -/

namespace GivenClause

/-! ## Ground terms -/

namespace TermOver

variable {ν φ : Type}

theorem isGround_iff {t : TermOver ν φ} : t.isGround = true ↔ t.varOccurrences = [] :=
  List.isEmpty_iff

/-- A ground application is one of ground terms. -/
theorem isGround_app {f : φ} {args : List (TermOver ν φ)} :
    (app f args).isGround = true ↔ ∀ a ∈ args, a.isGround = true := by
  simp only [isGround_iff, varOccurrences_app, List.flatMap_eq_nil_iff]

end TermOver

namespace Kbo

variable {kbo : Kbo} {s t : Term}

/-- Every term has all variables of a ground term. -/
theorem covers_of_isGround (ht : t.isGround = true) (s : Term) : Covers s t := by
  rw [Covers, TermOver.isGround_iff.1 ht]
  exact List.nil_subperm

/-! ## Terms that tie -/

/-- Different terms with the same variables compare by weights and heads, unless they are applications of
one function that are equally heavy. -/
theorem greater_or_greater_or_tie (kbo : Kbo) (hst : Covers s t) (hts : Covers t s)
    (hs : s.isVar = false) (hne : s ≠ t) :
    kbo.Greater s t ∨ kbo.Greater t s ∨
      ∃ f ss ts, s = .app f ss ∧ t = .app f ts ∧ kbo.exactWeight s = kbo.exactWeight t := by
  rcases lt_trichotomy (kbo.exactWeight s) (kbo.exactWeight t) with lighter | tie | heavier
  · exact Or.inr (Or.inl (.weight hts lighter))
  · rcases lt_trichotomy (kbo.headKey s) (kbo.headKey t) with lower | same | higher
    · exact Or.inr (Or.inl (.head hts tie.symm lower))
    · obtain ⟨f, ss, ts, rfl, rfl⟩ := exists_app_of_headKey_eq hs same hne
      exact Or.inr (Or.inr ⟨f, ss, ts, rfl, rfl, tie⟩)
    · exact Or.inl (.head hst tie higher)
  · exact Or.inl (.weight hst heavier)

/-- Different argument lists of one weight have a first difference, and it decides if its members are
comparable. -/
theorem argsGreater_or_argsGreater {ss ts : List Term}
    (ih : ∀ s ∈ ss, ∀ t ∈ ts, s ≠ t → kbo.Greater s t ∨ kbo.Greater t s)
    (tie : kbo.exactWeightList ss = kbo.exactWeightList ts) (hne : ss ≠ ts) :
    kbo.ArgsGreater ss ts ∨ kbo.ArgsGreater ts ss := by
  induction ss generalizing ts with
  | nil =>
    cases ts with
    | nil => exact absurd rfl hne
    | cons t ts =>
      -- a list that goes on is heavier
      have hpos := kbo.exactWeight_pos t
      rw [exactWeightList, exactWeightList] at tie
      omega
  | cons s ss ihs =>
    cases ts with
    | nil =>
      have hpos := kbo.exactWeight_pos s
      rw [exactWeightList, exactWeightList] at tie
      omega
    | cons t ts =>
      by_cases heq : s = t
      · subst heq
        rw [argsGreater_cons_self, argsGreater_cons_self]
        refine ihs (fun u hu v hv => ih u (List.mem_cons_of_mem s hu) v (List.mem_cons_of_mem s hv))
          ?_ fun h => hne (congrArg (s :: ·) h)
        rw [exactWeightList, exactWeightList] at tie
        omega
      · rw [argsGreater_cons_of_ne heq, argsGreater_cons_of_ne (Ne.symm heq)]
        exact ih s List.mem_cons_self t List.mem_cons_self heq

/-! ## Totality -/

/-- One of two different ground terms is greater than the other. -/
theorem greater_or_greater_of_isGround (kbo : Kbo) (hs : s.isGround = true) (ht : t.isGround = true)
    (hne : s ≠ t) : kbo.Greater s t ∨ kbo.Greater t s := by
  have hst := covers_of_isGround ht s
  have hts := covers_of_isGround hs t
  induction s using TermOver.induction generalizing t with
  | var x => cases hs
  | const c =>
    obtain h | h | ⟨f, ss, ts, happ, -⟩ := kbo.greater_or_greater_or_tie hst hts rfl hne
    · exact Or.inl h
    · exact Or.inr h
    · cases happ
  | app f ss ih =>
    obtain h | h | ⟨g, us, ts, happ, rfl, tie⟩ := kbo.greater_or_greater_or_tie hst hts rfl hne
    · exact Or.inl h
    · exact Or.inr h
    · -- the symbol is the same on both sides, so the argument lists weigh the same
      cases happ
      rw [greater_app_iff hst tie, greater_app_iff hts tie.symm]
      refine argsGreater_or_argsGreater (fun u hu v hv huv => ?_) ?_ fun h => hne (congrArg _ h)
      · have hu' := TermOver.isGround_app.1 hs u hu
        have hv' := TermOver.isGround_app.1 ht v hv
        exact ih u hu hu' hv' huv (covers_of_isGround hv' u) (covers_of_isGround hu' v)
      · rw [exactWeight, exactWeight] at tie
        omega

/-- The comparison is total on ground terms, whatever weights and precedences are set and whatever numbers
of arguments and stored arities the terms have: it never finds them incomparable, and it has a result when
their weights fit in 64 bits. -/
theorem compare_total_on_ground (kbo : Kbo) {s t : Term} (hs : s.isGround = true)
    (ht : t.isGround = true) :
    kbo.compare s t ≠ .ok .incomparable ∧
      (kbo.Fits s → kbo.Fits t → ∃ c, kbo.compare s t = .ok c ∧ c ≠ .incomparable) := by
  have hnot : kbo.compare s t ≠ .ok .incomparable := by
    intro h
    cases (compare_eq_ok_iff.1 h).2 with
    | incomparable hne hgreater hless =>
      exact (kbo.greater_or_greater_of_isGround hs ht hne).elim hgreater hless
  refine ⟨hnot, fun hfs hft => ?_⟩
  obtain ⟨c, hc⟩ := (kbo.compare_yields s t).total ⟨hfs, hft⟩
  exact ⟨c, hc, fun h => hnot (h ▸ hc)⟩

/-- A function applied to nothing and to 256 arguments has one head, as the arity of the second wraps to
zero, and one argument list is a beginning of the other; the terms are comparable all the same. -/
theorem compare_total_on_ground_wrappedArity :
    let kbo : Kbo := { weights := [(.function 0, 0)] }
    let s : Term := .apply 0 []
    let t : Term := .apply 0 (List.replicate 256 (.const 0))
    kbo.headKey s = kbo.headKey t ∧ s.isGround = true ∧ t.isGround = true ∧
      kbo.Fits s ∧ kbo.Fits t ∧ ∃ c, kbo.compare s t = .ok c ∧ c ≠ .incomparable := by
  intro kbo s t
  have hs : s.isGround = true := by decide +kernel
  have ht : t.isGround = true := by decide +kernel
  have hfs : kbo.exactWeight s < weightBound := by decide +kernel
  have hft : kbo.exactWeight t < weightBound := by decide +kernel
  exact ⟨by decide +kernel, hs, ht, hfs, hft, (kbo.compare_total_on_ground hs ht).2 hfs hft⟩

end Kbo

end GivenClause
