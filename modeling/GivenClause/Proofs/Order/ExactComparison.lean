import Mathlib.Algebra.Ring.Nat
import GivenClause.Proofs.Order.ComparisonLaws

/-! # The comparison with unbounded weights

The comparison of terms can be written down with weights that are ordinary numbers, and then it always has
an answer. The comparison in 64-bit arithmetic gives that answer unless it has to look at a weight that does
not fit. Weights are looked at only for terms that differ, are no variables and of which one has every
variable at least as often as the other. Where two weights fit, all weights inside of the two terms fit as
well, so going on into the arguments does not overflow.

* `Kbo.exactGreater` and `Kbo.exactCompare` are the comparison with unbounded weights;
* `Kbo.greater_eq_exact`, `Kbo.greaterArgs_eq_exact` and `Kbo.compare_eq_exact` say where both agree;
* `Kbo.compare_eq_exactCompare` puts this together with the exact condition for an overflow. -/

namespace GivenClause.Kbo

/-! ## Unbounded weights -/

/-- Decides `s > t` by unbounded weights, for different terms that are no variables; `tie` answers where
weights and heads agree. -/
def exactGreaterByWeight (kbo : Kbo) (s t : Term) (tie : Bool) : Bool :=
  if coversVariables s t then
    if kbo.exactWeight s ≠ kbo.exactWeight t then
      decide (kbo.exactWeight t < kbo.exactWeight s)
    else if kbo.headKey s ≠ kbo.headKey t then decide (kbo.headKey t < kbo.headKey s)
    else tie
  else false

mutual

/-- Whether the first term is greater than the second, which is not the same term, by unbounded weights. -/
def exactGreater (kbo : Kbo) : Term → Term → Bool
  | .var _, _ => false
  | .const _, .var _ => false
  | .app f args, .var x => decide (x ∈ (TermOver.app f args).varOccurrences)
  | .const c, .const d => kbo.exactGreaterByWeight (.const c) (.const d) false
  | .const c, .app g ts => kbo.exactGreaterByWeight (.const c) (.app g ts) false
  | .app f ss, .const d => kbo.exactGreaterByWeight (.app f ss) (.const d) false
  | .app f ss, .app g ts =>
    kbo.exactGreaterByWeight (.app f ss) (.app g ts) (kbo.exactGreaterArgs ss ts)

/-- Whether the first argument that differs is greater by unbounded weights. -/
def exactGreaterArgs (kbo : Kbo) : List Term → List Term → Bool
  | s :: ss, t :: ts => if s = t then kbo.exactGreaterArgs ss ts else kbo.exactGreater s t
  | _, _ => false

end

/-- Compares two terms by unbounded weights. -/
def exactCompare (kbo : Kbo) (s t : Term) : Comparison :=
  if s = t then .eq
  else if kbo.exactGreater s t then .gt
  else if kbo.exactGreater t s then .lt
  else .incomparable

/-! ## Where 64 bits are enough -/

variable {kbo : Kbo} {s t : Term}

theorem weight_eq_ok_iff {w : Nat} :
    kbo.weight t = .ok w ↔ kbo.Fits t ∧ kbo.exactWeight t = w := by
  rw [weight, weightAfter_eq, addWeights_eq_ok, Nat.zero_add, Fits]

/-- The decision by weights and heads is the exact one where the weights that it looks at fit, given that
ties are broken alike. -/
theorem greaterByWeight_eq_exact {tieBreak : Unit → Except Fault Bool} {exactTie : Bool}
    (hfits : Covers s t → kbo.Fits s ∧ kbo.Fits t)
    (htie : kbo.Fits s → kbo.Fits t → tieBreak () = .ok exactTie) :
    kbo.greaterByWeight s t tieBreak = .ok (kbo.exactGreaterByWeight s t exactTie) := by
  unfold greaterByWeight exactGreaterByWeight
  by_cases hcovers : coversVariables s t = true
  · obtain ⟨hs, ht⟩ := hfits (coversVariables_iff.1 hcovers)
    rw [if_pos hcovers, if_pos hcovers, weight_eq_ok kbo hs, weight_eq_ok kbo ht, htie hs ht]
    simp only [bind, Except.bind]
    split
    · rfl
    · split
      · rfl
      · rfl
  · rw [if_neg hcovers, if_neg hcovers]

/-- The arguments of an application whose weight fits have weights that fit. -/
theorem Fits.of_mem {f : FunctionSymbol} {args : List Term} (h : kbo.Fits (.app f args)) (ht : t ∈ args) :
    kbo.Fits t :=
  (kbo.exactWeight_lt_of_mem f ht).trans h

/-- Argument lists of terms whose weights fit are compared exactly if their members are. -/
theorem greaterArgs_eq_exact_of_forall {ss ts : List Term}
    (ih : ∀ s ∈ ss, ∀ t, ¬ kbo.Overflows s t → kbo.greater s t = .ok (kbo.exactGreater s t))
    (hss : ∀ s ∈ ss, kbo.Fits s) (hts : ∀ t ∈ ts, kbo.Fits t) :
    kbo.greaterArgs ss ts = .ok (kbo.exactGreaterArgs ss ts) := by
  induction ss generalizing ts with
  | nil => simp only [greaterArgs, exactGreaterArgs]
  | cons s ss ihs =>
    cases ts with
    | nil => simp only [greaterArgs, exactGreaterArgs]
    | cons t ts =>
      obtain ⟨hs, hss⟩ := List.forall_mem_cons.1 hss
      obtain ⟨ht, hts⟩ := List.forall_mem_cons.1 hts
      rw [greaterArgs, exactGreaterArgs]
      by_cases heq : s = t
      · rw [if_pos heq, if_pos heq]
        exact ihs (fun u hu => ih u (List.mem_cons_of_mem s hu)) hss hts
      · rw [if_neg heq, if_neg heq]
        exact ih s List.mem_cons_self t (not_overflows hs ht)

/-- Deciding `s > t` is exact unless it looks at a weight that does not fit. -/
theorem greater_eq_exact (h : ¬ kbo.Overflows s t) :
    kbo.greater s t = .ok (kbo.exactGreater s t) := by
  induction s using TermOver.induction generalizing t with
  | var x => rw [greater, exactGreater]
  | const c =>
    cases t with
    | var y => rw [greater, exactGreater]
    | const d =>
      rw [greater, exactGreater]
      exact greaterByWeight_eq_exact (fits_of_not_overflows rfl rfl h) fun _ _ => rfl
    | app g ts =>
      rw [greater, exactGreater]
      exact greaterByWeight_eq_exact (fits_of_not_overflows rfl rfl h) fun _ _ => rfl
  | app f ss ih =>
    cases t with
    | var y => rw [greater, exactGreater]
    | const d =>
      rw [greater, exactGreater]
      exact greaterByWeight_eq_exact (fits_of_not_overflows rfl rfl h) fun _ _ => rfl
    | app g ts =>
      rw [greater, exactGreater]
      -- only here the comparison goes on, into terms that weigh less
      refine greaterByWeight_eq_exact (fits_of_not_overflows rfl rfl h) fun hs ht => ?_
      exact greaterArgs_eq_exact_of_forall (fun u hu v huv => ih u hu huv) (fun u hu => hs.of_mem hu)
        fun v hv => ht.of_mem hv

/-- The arguments of applications whose weights fit are compared exactly. -/
theorem greaterArgs_eq_exact {f g : FunctionSymbol} {ss ts : List Term} (hs : kbo.Fits (.app f ss))
    (ht : kbo.Fits (.app g ts)) : kbo.greaterArgs ss ts = .ok (kbo.exactGreaterArgs ss ts) :=
  greaterArgs_eq_exact_of_forall (fun _ _ _ h => greater_eq_exact h) (fun _ hu => hs.of_mem hu)
    fun _ hv => ht.of_mem hv

/-- Two terms are compared exactly unless a weight that does not fit is looked at. -/
theorem compare_eq_exact (h : ¬ kbo.CompareOverflows s t) :
    kbo.compare s t = .ok (kbo.exactCompare s t) := by
  unfold compare exactCompare
  by_cases heq : s = t
  · rw [if_pos heq, if_pos heq]
  · have hst : ¬ kbo.Overflows s t := fun hoverflows => h ⟨heq, Or.inl hoverflows⟩
    have hts : ¬ kbo.Overflows t s := fun hoverflows => h ⟨heq, Or.inr hoverflows⟩
    -- the second direction is looked at only after the first one has failed
    rw [if_neg heq, if_neg heq, greater_eq_exact hst, greater_eq_exact hts]
    cases kbo.exactGreater s t with
    | true => rfl
    | false =>
      cases kbo.exactGreater t s with
      | true => rfl
      | false => rfl

/-! ## Where they are not -/

/-- The variable condition says that every variable occurs at least as often. -/
theorem covers_iff_occurrences : Covers s t ↔ ∀ x, t.occurrences x ≤ s.occurrences x := by
  rw [Covers, List.subperm_ext_iff]
  refine ⟨fun h x => ?_, fun h x _ => h x⟩
  by_cases hx : x ∈ t.varOccurrences
  · exact h x hx
  · rw [TermOver.occurrences, List.count_eq_zero.2 hx]
    exact Nat.zero_le _

theorem compareOverflows_iff :
    kbo.CompareOverflows s t ↔ s ≠ t ∧ s.isVar = false ∧ t.isVar = false ∧
      (Covers s t ∨ Covers t s) ∧
      (weightBound ≤ kbo.exactWeight s ∨ weightBound ≤ kbo.exactWeight t) := by
  constructor
  · rintro ⟨hne, h | h⟩
    · exact ⟨hne, h.left, h.right, Or.inl h.covers, h.heavy⟩
    · exact ⟨hne, h.right, h.left, Or.inr h.covers, h.heavy.symm⟩
  · rintro ⟨hne, hs, ht, hcovers | hcovers, heavy⟩
    · exact ⟨hne, Or.inl ⟨hs, ht, hcovers, heavy⟩⟩
    · exact ⟨hne, Or.inr ⟨ht, hs, hcovers, heavy.symm⟩⟩

/-- The comparison in 64-bit arithmetic agrees with the one by unbounded weights, whatever weights and
precedences are set:

* it overflows exactly when the terms are different and no variables, one of them has every variable at
  least as often as the other, and one of the weights is `2 ^ 64` or more;
* otherwise it gives the outcome of the comparison by unbounded weights;
* once the weights of two applications have been found, comparing their arguments does not overflow and gives
  the answer by unbounded weights. -/
theorem compare_eq_exactCompare (kbo : Kbo) (s t : Term) :
    (kbo.compare s t = .error .weightOverflow ↔
      s ≠ t ∧ s.isVar = false ∧ t.isVar = false ∧
      ((∀ x, t.occurrences x ≤ s.occurrences x) ∨ ∀ x, s.occurrences x ≤ t.occurrences x) ∧
      (2 ^ 64 ≤ kbo.exactWeight s ∨ 2 ^ 64 ≤ kbo.exactWeight t)) ∧
    (kbo.compare s t ≠ .error .weightOverflow → kbo.compare s t = .ok (kbo.exactCompare s t)) ∧
    ∀ f g ss ts v w, kbo.weight (.app f ss) = .ok v → kbo.weight (.app g ts) = .ok w →
      kbo.greaterArgs ss ts = .ok (kbo.exactGreaterArgs ss ts) := by
  refine ⟨?_, fun h => ?_, fun f g ss ts v w hs ht => ?_⟩
  · rw [compare_eq_error_iff, compareOverflows_iff, covers_iff_occurrences, covers_iff_occurrences]
    exact and_iff_right rfl
  · exact compare_eq_exact fun hoverflows => h (compare_eq_error_iff.2 ⟨rfl, hoverflows⟩)
  · exact greaterArgs_eq_exact (weight_eq_ok_iff.1 hs).1 (weight_eq_ok_iff.1 ht).1

/-- Two terms of weight `2 ^ 64` are compared without an overflow when their variables differ, and not
when one of them is ground. -/
example :
    let kbo : Kbo := { weights := [(.function 0, 18446744073709551615)] }
    kbo.compare (.app ⟨0, 1⟩ [.var 0]) (.app ⟨0, 1⟩ [.var 1]) = .ok .incomparable ∧
      kbo.compare (.app ⟨0, 1⟩ [.var 0]) (.const 0) = .error .weightOverflow := by
  decide +kernel

end GivenClause.Kbo
