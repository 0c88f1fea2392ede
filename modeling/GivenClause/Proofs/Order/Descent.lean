import Mathlib.Order.WellFounded
import GivenClause.Proofs.Order.ComparisonLaws

/-! # Descents in the term order end

The Knuth–Bendix ordering is well founded over any weights and precedences. Symbols weigh at least one,
so the arguments of an application are lighter than it and there are at most as many of them as its
weight says. Among terms of one weight the heads, and then the arguments as bounded lists of lighter
terms, go down lexicographically.

* `wellFounded_boundedLex`: lexicographic descents through lists of bounded length end;
* `Kbo.wellFounded_below` for the ordering over unbounded weights;
* `Kbo.compare_wellFounded` for the comparison in 64-bit arithmetic. -/

namespace GivenClause

/-! ## Lists of bounded length -/

variable {α : Type}

/-- One list lies below another lexicographically, and neither is longer than the bound. -/
def BoundedLex (r : α → α → Prop) (bound : Nat) (xs ys : List α) : Prop :=
  xs.length ≤ bound ∧ ys.length ≤ bound ∧ List.Lex r xs ys

theorem acc_boundedLex_nil (r : α → α → Prop) (bound : Nat) : Acc (BoundedLex r bound) [] :=
  Acc.intro _ fun _ h => by cases h.2.2

/-- A list is reached when its first member is and all shorter lists are. -/
theorem acc_boundedLex_cons {r : α → α → Prop} {bound : Nat} (hwf : WellFounded (BoundedLex r bound))
    {y : α} (hy : Acc r y) (ys : List α) : Acc (BoundedLex r (bound + 1)) (y :: ys) := by
  induction hy generalizing ys with
  | intro y _ ih =>
    -- the first member goes down, with any rest, or it stays and the rest goes down
    induction ys using hwf.induction with
    | _ ys ihRest =>
      refine Acc.intro _ fun xs hxs => ?_
      obtain ⟨hx, hy, hlex⟩ := hxs
      cases hlex with
      | nil => exact acc_boundedLex_nil r _
      | cons hrest => exact ihRest _ ⟨Nat.le_of_succ_le_succ hx, Nat.le_of_succ_le_succ hy, hrest⟩
      | rel hfirst => exact ih _ hfirst _

/-- Descents through lists of bounded length end when descents through their members do. -/
theorem wellFounded_boundedLex {r : α → α → Prop} (hr : WellFounded r) (bound : Nat) :
    WellFounded (BoundedLex r bound) := by
  induction bound with
  | zero =>
    refine ⟨fun ys => Acc.intro _ fun xs h => ?_⟩
    obtain ⟨-, hys, hlex⟩ := h
    rw [List.length_eq_zero_iff.1 (Nat.le_zero.1 hys)] at hlex
    cases hlex
  | succ bound ih =>
    refine ⟨fun ys => ?_⟩
    cases ys with
    | nil => exact acc_boundedLex_nil r _
    | cons y ys => exact acc_boundedLex_cons ih (hr.apply y) ys

namespace Kbo

/-! ## Terms of one weight -/

/-- The term `s` can be left for `t` in a descent. -/
def Below (kbo : Kbo) (t s : Term) : Prop :=
  kbo.Greater s t

/-- An argument list has no more members than its weight says. -/
theorem length_le_exactWeightList (kbo : Kbo) (ts : List Term) :
    ts.length ≤ kbo.exactWeightList ts := by
  induction ts with
  | nil => exact Nat.zero_le _
  | cons t ts ih =>
    have := kbo.exactWeight_pos t
    rw [List.length_cons, exactWeightList]
    omega

theorem length_lt_exactWeight_app (kbo : Kbo) (f : FunctionSymbol) (args : List Term) :
    args.length < kbo.exactWeight (.app f args) := by
  have hpos := kbo.symbolWeight_pos (.function f.id)
  have hle := kbo.length_le_exactWeightList args
  rw [exactWeight]
  omega

theorem length_headKey_le (kbo : Kbo) (t : Term) : (kbo.headKey t).length ≤ 4 := by
  cases t with
  | var x => exact Nat.zero_le _
  | const c => exact Nat.le_refl _
  | app f args => exact Nat.le_refl _

/-- The descents of terms that are lighter than `w`. -/
def LighterBelow (kbo : Kbo) (w : Nat) (t s : Term) : Prop :=
  kbo.exactWeight s < w ∧ kbo.Below t s

theorem wellFounded_lighterBelow {kbo : Kbo} {w : Nat}
    (ih : ∀ s, kbo.exactWeight s < w → Acc kbo.Below s) : WellFounded (kbo.LighterBelow w) := by
  refine ⟨fun s => ?_⟩
  by_cases hs : kbo.exactWeight s < w
  · exact Subrelation.accessible And.right (ih s hs)
  · exact Acc.intro _ fun t ht => absurd ht.1 hs

/-- Arguments that decide between applications of weight `w` go down lexicographically. -/
theorem ArgsGreater.boundedLex {kbo : Kbo} {w : Nat} {f : FunctionSymbol} {ss ts : List Term}
    (h : kbo.ArgsGreater ss ts) (hs : kbo.exactWeight (.app f ss) = w)
    (ht : kbo.exactWeight (.app f ts) = w) : BoundedLex (kbo.LighterBelow w) w ts ss := by
  refine ⟨?_, ?_, ?_⟩
  · exact ht ▸ (kbo.length_lt_exactWeight_app f ts).le
  · exact hs ▸ (kbo.length_lt_exactWeight_app f ss).le
  · obtain ⟨front, s, t, ss, ts, rfl, rfl, hgreater⟩ := h
    have hlighter : kbo.exactWeight s < w := hs ▸ kbo.exactWeight_lt_of_mem f (by simp)
    exact List.Lex.append_left _ (.rel ⟨hlighter, hgreater⟩) front

/-- Descents from applications of one function end, if those that leave the weight or the head do. -/
theorem acc_app {kbo : Kbo} {w : Nat} (ih : ∀ s, kbo.exactWeight s < w → Acc kbo.Below s)
    {f : FunctionSymbol} {args : List Term} (hw : kbo.exactWeight (.app f args) = w)
    (ihHead : ∀ t, kbo.exactWeight t = w → kbo.headKey t < kbo.headKey (.app f args) →
      Acc kbo.Below t) : Acc kbo.Below (.app f args) := by
  have hargs := wellFounded_boundedLex (wellFounded_lighterBelow ih) w
  induction args using hargs.induction with
  | _ args ihArgs =>
    refine Acc.intro _ fun t ht => ?_
    obtain heavier | ⟨tie, higher | ⟨ts, rfl, hts⟩⟩ := Greater.app_cases ht
    · exact ih t (hw ▸ heavier)
    · exact ihHead t (tie ▸ hw) higher
    · exact ihArgs ts (hts.boundedLex hw (tie ▸ hw)) (tie ▸ hw) ihHead

/-- Descents from terms of one weight end, if those from lighter terms do. -/
theorem acc_of_exactWeight_eq {kbo : Kbo} {w : Nat}
    (ih : ∀ s, kbo.exactWeight s < w → Acc kbo.Below s) {t : Term} (hw : kbo.exactWeight t = w) :
    Acc kbo.Below t := by
  have hheads : WellFounded fun t s => BoundedLex (· < ·) 4 (kbo.headKey t) (kbo.headKey s) :=
    InvImage.wf kbo.headKey (wellFounded_boundedLex Nat.lt_wfRel.wf 4)
  induction t using hheads.induction with
  | _ t ihHeads =>
    have ihHead : ∀ u, kbo.exactWeight u = w → kbo.headKey u < kbo.headKey t → Acc kbo.Below u :=
      fun u hu hlt => ihHeads u ⟨kbo.length_headKey_le u, kbo.length_headKey_le t, hlt⟩ hu
    cases t with
    | var x => exact Acc.intro _ fun u hu => absurd hu Greater.not_var
    | const c =>
      refine Acc.intro _ fun u hu => ?_
      cases hu with
      | weight _ heavier => exact ih u (hw ▸ heavier)
      | head _ tie higher => exact ihHead u (tie ▸ hw) higher
    | app f args => exact acc_app ih hw ihHead

/-! ## All terms -/

/-- Descents in the ordering over unbounded weights end. -/
theorem wellFounded_below (kbo : Kbo) : WellFounded kbo.Below := by
  refine ⟨fun t => ?_⟩
  generalize hw : kbo.exactWeight t = w
  induction w using Nat.strong_induction_on generalizing t with
  | _ w ih => exact acc_of_exactWeight_eq (fun s hs => ih _ hs s rfl) hw

/-- Descents in the comparison of terms end, whatever weights and precedences are set: there is no
infinite sequence of terms in which each is found greater than the next. -/
theorem compare_wellFounded (kbo : Kbo) :
    WellFounded (fun t s => kbo.compare s t = .ok .gt) ∧
      ¬ ∃ t : Nat → Term, ∀ i, kbo.compare (t i) (t (i + 1)) = .ok .gt := by
  have hwf : WellFounded fun t s => kbo.compare s t = .ok .gt :=
    Subrelation.wf (fun h => (compare_eq_ok_iff.1 h).2.gt_iff.1 rfl) kbo.wellFounded_below
  refine ⟨hwf, ?_⟩
  rintro ⟨t, ht⟩
  exact (wellFounded_iff_isEmpty_descending_chain.1 hwf).false ⟨t, ht⟩

end Kbo

end GivenClause
