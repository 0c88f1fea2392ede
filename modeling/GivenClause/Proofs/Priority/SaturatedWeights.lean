import Mathlib.Algebra.Ring.Nat
import GivenClause.Priority.Weight

/-! # Saturated weights

A weight stops at the largest 64-bit number, and so does every product and every partial sum on the way to it.
Once a sum of such numbers has stopped it stays there, and a product with a positive coefficient only brings it
there sooner. So the stops on the way cannot be seen in the end: a weight is the exact one, cut once, and the
order in which parts are added does not matter.

* `WeightFunction.exactWeigh` is the weight in exact arithmetic, through all nested sums;
* `WeightFunction.weigh_sum`: a sum stops once for all its products and partial sums;
* `WeightFunction.Reorders` changes the order of the parts of sums at any depth;
* `WeightFunction.weigh_saturates` is the result for all weight functions. -/

namespace GivenClause.WeightFunction

/-- Induction on weight functions where the parts of a sum are covered one by one. -/
@[elab_as_elim]
theorem induction {motive : WeightFunction → Prop} (age : motive .age) (symbols : motive .symbols)
    (favorGoal : ∀ threshold, motive (.favorGoal threshold))
    (sum : ∀ parts, (∀ p ∈ parts, motive p.1) → motive (.sum parts))
    (custom : ∀ weigh, motive (.custom weigh)) : ∀ weight, motive weight := by
  refine @WeightFunction.rec motive (fun parts => ∀ p ∈ parts, motive p.1) (fun p => motive p.1)
    age symbols favorGoal sum custom ?_ ?_ ?_
  · exact fun _ hp => absurd hp List.not_mem_nil
  · exact fun p parts hp hparts => List.forall_mem_cons.2 ⟨hp, hparts⟩
  · exact fun _ _ hpart => hpart

/-! ## Exact weights -/

mutual

/-- The weight of a clause in exact arithmetic. -/
def exactWeigh (clause : Clause) : WeightFunction → Nat
  | .age => if clause.isEmpty then 0 else clause.id
  | .symbols => symbolWeight clause
  | .favorGoal threshold =>
    symbolWeight clause * (min (clause.distance.getD threshold) threshold + 1)
  | .sum parts => exactWeighParts clause parts
  | .custom weigh => (weigh clause).toNat

/-- The sum of the weights of parts in exact arithmetic. -/
def exactWeighParts (clause : Clause) : List (WeightFunction × Nat) → Nat
  | [] => 0
  | (part, coefficient) :: parts =>
    exactWeigh clause part * coefficient + exactWeighParts clause parts

end

theorem exactWeigh_sum (clause : Clause) (parts : List (WeightFunction × Nat)) :
    exactWeigh clause (.sum parts) = (parts.map fun p => exactWeigh clause p.1 * p.2).sum := by
  rw [exactWeigh]
  induction parts with
  | nil => rfl
  | cons p parts ih => rw [exactWeighParts, List.map_cons, List.sum_cons, ih]

/-! ## Cutting at the largest weight -/

theorem clamp_of_le {n : Nat} (h : n ≤ maxWeight) : clamp n = n :=
  Nat.min_eq_left h

theorem clamp_of_ge {n : Nat} (h : maxWeight ≤ n) : clamp n = maxWeight :=
  Nat.min_eq_right h

/-- A sum that is cut may be cut before it is made. -/
theorem clamp_add (m n : Nat) : clamp (clamp m + clamp n) = clamp (m + n) := by
  simp only [clamp]
  omega

/-- A product that is cut may be cut before it is made. -/
theorem clamp_mul (m n : Nat) : clamp (clamp m * n) = clamp (m * n) := by
  rcases Nat.le_total m maxWeight with h | h
  · rw [clamp_of_le h]
  · rw [clamp_of_ge h]
    cases n with
    | zero => rfl
    | succ n =>
      -- both products are at least the largest weight
      have hle := Nat.le_mul_of_pos_right maxWeight n.succ_pos
      rw [clamp_of_ge hle, clamp_of_ge (Nat.le_trans hle (Nat.mul_le_mul_right _ h))]

/-- Sums whose members are the same once they are cut are the same once they are cut. -/
theorem clamp_sum_congr {α : Type} {f g : α → Nat} {xs : List α}
    (h : ∀ x ∈ xs, clamp (f x) = clamp (g x)) : clamp (xs.map f).sum = clamp (xs.map g).sum := by
  induction xs with
  | nil => rfl
  | cons x xs ih =>
    obtain ⟨hx, hxs⟩ := List.forall_mem_cons.1 h
    rw [List.map_cons, List.map_cons, List.sum_cons, List.sum_cons, ← clamp_add, hx, ih hxs, clamp_add]

/-! ## Sums -/

/-- Adding parts one by one cuts once for all products and partial sums. -/
theorem weighParts_eq_clamp (clause : Clause) (total : Nat) (parts : List (WeightFunction × Nat)) :
    weighParts clause (clamp total) parts =
      clamp (total + (parts.map fun p => weigh clause p.1 * p.2).sum) := by
  induction parts generalizing total with
  | nil => rw [weighParts, List.map_nil, List.sum_nil, Nat.add_zero]
  | cons p parts ih =>
    obtain ⟨part, coefficient⟩ := p
    rw [weighParts, clamp_add, ih, List.map_cons, List.sum_cons, Nat.add_assoc]

theorem weigh_sum (clause : Clause) (parts : List (WeightFunction × Nat)) :
    weigh clause (.sum parts) = clamp (parts.map fun p => weigh clause p.1 * p.2).sum := by
  have h := weighParts_eq_clamp clause 0 parts
  rwa [Nat.zero_add] at h

/-- A weight is the exact one, cut once, for a clause whose number and symbol weight fit. -/
theorem weigh_eq_clamp {clause : Clause} (hid : clause.id ≤ maxWeight)
    (hsymbols : symbolWeight clause ≤ maxWeight) (weight : WeightFunction) :
    weight.weigh clause = clamp (weight.exactWeigh clause) := by
  induction weight using induction with
  | age =>
    rw [weigh, exactWeigh, clamp_of_le]
    split
    · exact Nat.zero_le maxWeight
    · exact hid
  | symbols => rw [weigh, exactWeigh, clamp_of_le hsymbols]
  | favorGoal threshold => rw [weigh, exactWeigh]
  | custom weigh =>
    rw [WeightFunction.weigh, exactWeigh, clamp_of_le]
    exact Nat.le_sub_one_of_lt (weigh clause).toNat_lt_size
  | sum parts ih =>
    -- a nested weight was cut before it met its coefficient
    rw [weigh_sum, exactWeigh_sum]
    refine clamp_sum_congr fun p hp => ?_
    rw [ih p hp, clamp_mul]

/-! ## The order of parts -/

/-- Two weight functions differ in the order of the parts of sums only, at any depth. -/
inductive Reorders : WeightFunction → WeightFunction → Prop where
  /-- Nothing is changed. -/
  | refl (weight : WeightFunction) : Reorders weight weight
  /-- The parts of a sum change places. -/
  | parts {parts parts' : List (WeightFunction × Nat)} (h : parts.Perm parts') :
      Reorders (.sum parts) (.sum parts')
  /-- One part of a sum is reordered in itself. -/
  | inside {part part' : WeightFunction} (h : Reorders part part') (coefficient : Nat)
      (front back : List (WeightFunction × Nat)) :
      Reorders (.sum (front ++ (part, coefficient) :: back))
        (.sum (front ++ (part', coefficient) :: back))
  /-- One reordering after another. -/
  | trans {first second third : WeightFunction} (h : Reorders first second)
      (h' : Reorders second third) : Reorders first third

/-- Reordering parts changes no weight. -/
theorem Reorders.weigh_eq {weight other : WeightFunction} (h : Reorders weight other)
    (clause : Clause) : other.weigh clause = weight.weigh clause := by
  induction h with
  | refl => rfl
  | parts h => rw [weigh_sum, weigh_sum, (h.map _).sum_nat]
  | inside _ coefficient front back ih =>
    simp only [weigh_sum, List.map_append, List.map_cons, ih]
  | trans _ _ ih ih' => rw [ih', ih]

/-- The weight of a clause is the exact one, cut at the largest 64-bit number, through all nested sums and
whatever their coefficients are. Reordering the parts of sums, at any depth, does not change it. The number and
the symbol weight of the clause have to fit in 64 bits themselves. -/
theorem weigh_saturates (weight : WeightFunction) {clause : Clause} (hid : clause.id ≤ maxWeight)
    (hsymbols : symbolWeight clause ≤ maxWeight) :
    weight.weigh clause = min (2 ^ 64 - 1) (weight.exactWeigh clause) ∧
      ∀ other, weight.Reorders other → other.weigh clause = weight.weigh clause := by
  refine ⟨?_, fun other h => h.weigh_eq clause⟩
  rw [weigh_eq_clamp hid hsymbols, Nat.min_comm]
  rfl

/-- Clause 7, the literal `p(x)`, at distance 2 from a goal. -/
def unitClause : Clause where
  id := 7
  literals := [.prop (.app ⟨0, 1⟩ [.var 0]) true]
  selected := .empty
  flags := .empty
  weight := 2
  vars := [0]
  parents := []
  descendants := []
  provenance := .input .axiomatic
  distance := some 2
  epoch := 0

/-- A sum in which one part is cut, another is not and a third has coefficient zero; the nested sum and the
sum itself are turned round. -/
theorem weigh_saturates_nested :
    let huge : WeightFunction := .custom fun _ => 0x8000000000000000
    let weight : WeightFunction :=
      .sum [(.sum [(huge, 3), (.age, 5)], 2), (.favorGoal 4, 1), (huge, 0)]
    let other : WeightFunction :=
      .sum [(huge, 0), (.favorGoal 4, 1), (.sum [(.age, 5), (huge, 3)], 2)]
    unitClause.id ≤ maxWeight ∧ symbolWeight unitClause ≤ maxWeight ∧
      weight.exactWeigh unitClause = 2 * (3 * 2 ^ 63 + 5 * 7) + 15 ∧
      weight.weigh unitClause = 2 ^ 64 - 1 ∧ other.weigh unitClause = 2 ^ 64 - 1 := by
  intro huge weight other
  have hid : unitClause.id ≤ maxWeight := by decide
  have hsymbols : symbolWeight unitClause ≤ maxWeight := by decide
  have hexact : weight.exactWeigh unitClause = 2 * (3 * 2 ^ 63 + 5 * 7) + 15 := by decide +kernel
  have hreorders : weight.Reorders other :=
    .trans (.inside (.parts (.swap _ _ [])) 2 [] _) (.parts (List.reverse_perm _).symm)
  obtain ⟨hweigh, hsame⟩ := weigh_saturates weight hid hsymbols
  rw [hexact] at hweigh
  refine ⟨hid, hsymbols, hexact, hweigh.trans (by decide +kernel), ?_⟩
  exact (hsame other hreorders).trans (hweigh.trans (by decide +kernel))

end GivenClause.WeightFunction
