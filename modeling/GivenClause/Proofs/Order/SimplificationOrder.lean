import GivenClause.Proofs.Order.ComparisonLaws

/-! # The term order is a simplification order

A term that is greater than another stays greater when both are put in the same place of an application,
and every term is greater than what stands properly inside it. With the laws of a strict order and
stability under instances, this is what makes it sound to rewrite by an oriented equation anywhere in a
term.

* `Kbo.Greater.app`: the order is compatible with applications;
* `Kbo.greater_of_at?`: a term is greater than its proper subterms;
* `Kbo.compare_simplification` says both of the comparison in 64-bit arithmetic. -/

namespace GivenClause

namespace Kbo

variable {kbo : Kbo} {s t u : Term}

/-! ## One argument of an application -/

theorem exactWeightList_append (kbo : Kbo) (ss ts : List Term) :
    kbo.exactWeightList (ss ++ ts) = kbo.exactWeightList ss + kbo.exactWeightList ts := by
  induction ss with
  | nil => simp [exactWeightList]
  | cons s ss ih => rw [List.cons_append, exactWeightList, exactWeightList, ih, Nat.add_assoc]

/-- The weight of an application around one of its arguments. -/
theorem exactWeight_app_around (kbo : Kbo) (f : FunctionSymbol) (front back : List Term) (s : Term) :
    kbo.exactWeight (.app f (front ++ s :: back)) =
      kbo.exactWeight (.app f (front ++ back)) + kbo.exactWeight s := by
  simp only [exactWeight, exactWeightList_append, exactWeightList]
  omega

/-- The variables of an application around one of its arguments. -/
theorem varOccurrences_app_around (f : FunctionSymbol) (front back : List Term) (s : Term) :
    (TermOver.app f (front ++ s :: back)).varOccurrences =
      front.flatMap TermOver.varOccurrences ++
        (s.varOccurrences ++ back.flatMap TermOver.varOccurrences) := by
  rw [TermOver.varOccurrences_app, List.flatMap_append, List.flatMap_cons]

/-- The variable condition is compatible with applications. -/
theorem Covers.app (h : Covers s t) (f : FunctionSymbol) (front back : List Term) :
    Covers (.app f (front ++ s :: back)) (.app f (front ++ t :: back)) := by
  rw [Covers, varOccurrences_app_around, varOccurrences_app_around]
  exact (List.subperm_append_left _).2 ((List.subperm_append_right _).2 h)

/-- An application has every variable of an argument at least as often. -/
theorem covers_app_of_mem (f : FunctionSymbol) {args : List Term} (h : t ∈ args) :
    Covers (.app f args) t := by
  obtain ⟨front, back, rfl⟩ := List.append_of_mem h
  rw [Covers, varOccurrences_app_around]
  have hsublist : t.varOccurrences.Sublist
      (t.varOccurrences ++ back.flatMap TermOver.varOccurrences) := List.sublist_append_left _ _
  exact (hsublist.trans (List.sublist_append_right _ _)).subperm

/-! ## Contexts and subterms -/

/-- The order is compatible with applications: a greater argument among equal ones makes a greater
application. -/
theorem Greater.app (h : kbo.Greater s t) (f : FunctionSymbol) (front back : List Term) :
    kbo.Greater (.app f (front ++ s :: back)) (.app f (front ++ t :: back)) := by
  have hcovers := h.covers.app f front back
  have hs := kbo.exactWeight_app_around f front back s
  have ht := kbo.exactWeight_app_around f front back t
  -- a heavier argument makes a heavier application; otherwise the argument is the first difference
  by_cases heavier : kbo.exactWeight t < kbo.exactWeight s
  · exact .weight hcovers (by omega)
  · have tie : kbo.exactWeight s = kbo.exactWeight t := by
      have hle := h.exactWeight_le
      omega
    exact .args hcovers (by omega) h

/-- An application is greater than its arguments. -/
theorem greater_of_mem (kbo : Kbo) (f : FunctionSymbol) {args : List Term} (h : t ∈ args) :
    kbo.Greater (.app f args) t :=
  .weight (covers_app_of_mem f h) (kbo.exactWeight_lt_of_mem f h)

/-- A term is greater than its proper subterms. -/
theorem greater_of_at? (kbo : Kbo) {path : Path} (hpath : path ≠ []) (h : t.at? path = some u) :
    kbo.Greater t u := by
  induction path generalizing t with
  | nil => exact absurd rfl hpath
  | cons i path ih =>
    cases t with
    | var x => cases h
    | const c => cases h
    | app f args =>
      rw [TermOver.at?] at h
      split at h
      · next arg harg =>
        have harg' : kbo.Greater (.app f args) arg :=
          kbo.greater_of_mem f (List.mem_of_getElem? harg)
        -- the path ends at the argument or goes on inside it
        by_cases hend : path = []
        · rw [hend, TermOver.at?_nil, Option.some.injEq] at h
          exact h ▸ harg'
        · exact harg'.trans (ih hend h)
      · cases h

/-- The comparison finds the greater term as soon as its weight fits, since the smaller one weighs no
more. -/
theorem Greater.compare_eq_gt (h : kbo.Greater s t) (hfits : kbo.Fits s) :
    kbo.compare s t = .ok .gt := by
  have ht : kbo.Fits t := h.exactWeight_le.trans_lt hfits
  exact compare_eq_ok_iff.2 ⟨not_compareOverflows hfits ht, .gt h⟩

/-- The comparison is that of a simplification order, whatever weights and precedences are set, as long as
the weight of the greater term fits in 64 bits:

* a term that compares as greater than another makes the application that it is an argument of compare
  as greater than the application with the other term in its place, all other arguments being the same;
* every term compares as greater than each of its proper subterms. -/
theorem compare_simplification (kbo : Kbo) :
    (∀ (f : FunctionSymbol) (front back : List Term) (s t : Term),
      kbo.compare s t = .ok .gt → kbo.Fits (.app f (front ++ s :: back)) →
      kbo.compare (.app f (front ++ s :: back)) (.app f (front ++ t :: back)) = .ok .gt) ∧
    ∀ (t u : Term) (path : Path), path ≠ [] → t.at? path = some u → kbo.Fits t →
      kbo.compare t u = .ok .gt := by
  constructor
  · intro f front back s t h hfits
    have hgreater : kbo.Greater s t := (compare_eq_ok_iff.1 h).2.gt_iff.1 rfl
    exact (hgreater.app f front back).compare_eq_gt hfits
  · intro t u path hpath hsub hfits
    exact (kbo.greater_of_at? hpath hsub).compare_eq_gt hfits

/-- Heavy symbols: `f` weighs as much as fits but for a little, `g` was given weight zero. -/
def nearlyFull : Kbo where
  weights := [(.function 0, 18446744073709551611), (.function 1, 0)]
  precedences := [(.constant 1, 1)]

/-- `b > a` by precedence only, so `f(x, b, x) > f(x, a, x)` by the second argument; and
`f(x, b, g(y)) > y`, where the first term has the greatest weight that fits. -/
theorem compare_simplification_nearlyFull :
    let f : FunctionSymbol := ⟨0, 3⟩
    let g : FunctionSymbol := ⟨1, 1⟩
    nearlyFull.compare (.const 1) (.const 0) = .ok .gt ∧
      nearlyFull.compare (.app f [.var 0, .const 1, .var 0]) (.app f [.var 0, .const 0, .var 0]) =
        .ok .gt ∧
      nearlyFull.compare (.app f [.var 0, .const 1, .app g [.var 1]]) (.var 1) = .ok .gt := by
  intro f g
  have hconst : nearlyFull.compare (.const 1) (.const 0) = .ok .gt := by decide +kernel
  have hfits : nearlyFull.exactWeight (.app f [.var 0, .const 1, .var 0]) < weightBound := by
    decide +kernel
  have hfits' : nearlyFull.exactWeight (.app f [.var 0, .const 1, .app g [.var 1]]) < weightBound := by
    decide +kernel
  refine ⟨hconst, ?_, ?_⟩
  · exact nearlyFull.compare_simplification.1 f [.var 0] [.var 0] (.const 1) (.const 0) hconst hfits
  · exact nearlyFull.compare_simplification.2 _ (.var 1) [2, 0] (by decide) rfl hfits'

end Kbo

end GivenClause
