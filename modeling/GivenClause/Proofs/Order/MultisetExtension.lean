import Mathlib.Data.Multiset.DershowitzManna
import Mathlib.Order.RelClasses
import GivenClause.Proofs.Order.Descent
import GivenClause.Proofs.Order.GroundOrder
import GivenClause.Proofs.Order.MultisetOrder
import GivenClause.Proofs.Order.SimplificationOrder

/-! # The comparison of multisets as an order

The comparison of lists of terms cancels common members and then looks for a member above each member that
is left on the other side. This decides the multiset extension of Dershowitz and Manna: one multiset is
greater when the other arises from it by taking some members out, at least one, and putting in members that
are smaller than one of those. The extension of a strict order is a strict order, and that of an order which
is total on ground terms is total on their multisets. Literals compare as multisets, so all of it holds of
them as well.

* `Kbo.Exchanges` is the definition of Dershowitz and Manna over the comparison of terms;
* `Kbo.MultisetGreater.trans` and `Kbo.multisetGreater_or_of_isGround`: the relation is transitive, and total
  on ground multisets;
* `Kbo.IsMultisetExtension` lists what a comparison by multisets of terms satisfies;
* `Kbo.compare_isMultisetExtension`: the comparisons of lists and of literals are of that kind. -/

namespace GivenClause.Kbo

variable {kbo : Kbo} {M N P : Multiset Term}

/-! ## A strict order on multisets -/

instance isStrictOrder_below (kbo : Kbo) : IsStrictOrder Term kbo.Below where
  irrefl _ h := Greater.ne h rfl
  trans _ _ _ hst htu := Greater.trans htu hst

/-- The order of terms, with its reflexive part. -/
abbrev termOrder (kbo : Kbo) : PartialOrder Term :=
  partialOrderOfSO kbo.Below

/-- The relation is the extension of that order. -/
theorem multisetGreater_iff_isDershowitzMannaLT :
    kbo.MultisetGreater M N ↔ @Multiset.IsDershowitzMannaLT Term kbo.termOrder.toPreorder N M := by
  constructor
  · rintro ⟨Z, X, Y, hX, hM, hN, hdominates⟩
    exact ⟨Z, Y, X, hX, hN, hM, hdominates⟩
  · rintro ⟨Z, Y, X, hX, hN, hM, hdominates⟩
    exact ⟨Z, X, Y, hX, hM, hN, hdominates⟩

/-- The relation is transitive. -/
theorem MultisetGreater.trans (hMN : kbo.MultisetGreater M N) (hNP : kbo.MultisetGreater N P) :
    kbo.MultisetGreater M P := by
  rw [multisetGreater_iff_isDershowitzMannaLT] at hMN hNP ⊢
  exact @Multiset.IsDershowitzMannaLT.trans Term kbo.termOrder.toPreorder P N M hNP hMN

/-- A ground member that has none above it on the other side dominates that side. -/
theorem dominates_of_isGround {x : Term} (hx : x ∈ M) (hN : x ∉ N) (hground : x.isGround = true)
    (hgroundN : ∀ y ∈ N, y.isGround = true) (hmax : ∀ y ∈ N, ¬ kbo.Greater y x) :
    kbo.Dominates M N := by
  intro y hy
  have hne : x ≠ y := fun heq => hN (heq ▸ hy)
  have hor := kbo.greater_or_greater_of_isGround hground (hgroundN y hy) hne
  exact ⟨x, hx, hor.resolve_right (hmax y hy)⟩

/-- One of two different multisets of ground terms is greater. -/
theorem multisetGreater_or_of_isGround (kbo : Kbo) (hM : ∀ t ∈ M, t.isGround = true)
    (hN : ∀ t ∈ N, t.isGround = true) (hne : M ≠ N) :
    kbo.MultisetGreater M N ∨ kbo.MultisetGreater N M := by
  have hrest : M - N + (N - M) ≠ 0 := by
    intro h
    rw [add_eq_zero] at h
    exact hne (eq_of_sub_eq_zero h.1 h.2)
  have hgroundM : ∀ t ∈ M - N, t.isGround = true := fun t ht =>
    hM t (Multiset.mem_of_le (Multiset.sub_le_self M N) ht)
  have hgroundN : ∀ t ∈ N - M, t.isGround = true := fun t ht =>
    hN t (Multiset.mem_of_le (Multiset.sub_le_self N M) ht)
  -- of all members that are not common, one has none above it, and its side wins
  obtain ⟨x, hx, hmax⟩ := kbo.exists_maximal hrest
  have hmaxM : ∀ t ∈ M - N, ¬ kbo.Greater t x := fun t ht => hmax t (Multiset.mem_add.2 (Or.inl ht))
  have hmaxN : ∀ t ∈ N - M, ¬ kbo.Greater t x := fun t ht => hmax t (Multiset.mem_add.2 (Or.inr ht))
  rcases Multiset.mem_add.1 hx with hx | hx
  · refine Or.inl ((multisetGreater_iff_dominates hne).2 ?_)
    refine dominates_of_isGround hx (fun hx' => ?_) (hgroundM x hx) hgroundN hmaxN
    rw [Multiset.mem_sub] at hx hx'
    omega
  · refine Or.inr ((multisetGreater_iff_dominates hne.symm).2 ?_)
    refine dominates_of_isGround hx (fun hx' => ?_) (hgroundN x hx) hgroundM hmaxM
    rw [Multiset.mem_sub] at hx hx'
    omega

/-! ## Exchanging members -/

/-- The second multiset arises from the first by exchanging some members, at least one, for terms each of
which compares as smaller than one of them. -/
def Exchanges (kbo : Kbo) (M N : Multiset Term) : Prop :=
  ∃ X Y, X ≠ 0 ∧ X ≤ M ∧ N = M - X + Y ∧ ∀ y ∈ Y, ∃ x ∈ X, kbo.compare y x = .ok .lt

/-- Where a term is found smaller than another, the other one is greater, and this is found wherever the
weight of the greater one fits. -/
theorem compare_eq_lt_iff {s t : Term} (ht : kbo.Fits t) :
    kbo.compare s t = .ok .lt ↔ kbo.Greater t s := by
  constructor
  · exact fun h => (compare_eq_ok_iff.1 h).2.lt_iff.1 rfl
  · intro h
    rw [compare_comm, h.compare_eq_gt ht]
    rfl

/-- Exchanging members by the comparison is the relation, where weights fit. -/
theorem exchanges_iff (hM : ∀ t ∈ M, kbo.Fits t) : kbo.Exchanges M N ↔ kbo.MultisetGreater M N := by
  constructor
  · rintro ⟨X, Y, hX, hle, rfl, hsmaller⟩
    refine ⟨M - X, X, Y, hX, (tsub_add_cancel_of_le hle).symm, rfl, fun y hy => ?_⟩
    obtain ⟨x, hx, hyx⟩ := hsmaller y hy
    exact ⟨x, hx, (compare_eq_lt_iff (hM x (Multiset.mem_of_le hle hx))).1 hyx⟩
  · -- members that stay are what is left when the exchanged ones are taken out
    rintro ⟨Z, X, Y, hX, rfl, rfl, hdominates⟩
    refine ⟨X, Y, hX, Multiset.le_add_left X Z, ?_, fun y hy => ?_⟩
    · rw [Multiset.add_sub_cancel_right]
    · obtain ⟨x, hx, hxy⟩ := hdominates y hy
      exact ⟨x, hx, (compare_eq_lt_iff (hM x (Multiset.mem_add.2 (Or.inr hx)))).2 hxy⟩

/-! ## The comparisons -/

/-- The outcome of a comparison says how two multisets are related. -/
theorem compareMultisets_eq_ok_iff {m n : List Term} {c : Comparison} (hm : kbo.AllFit m)
    (hn : kbo.AllFit n) :
    TermOrder.compareMultisets kbo m n = .ok c ↔
      c.Tells ((m : Multiset Term) = n) (kbo.MultisetGreater m n) (kbo.MultisetGreater n m) := by
  have hyields := kbo.compareMultisets_yields m n
  refine ⟨hyields.sound c, fun h => ?_⟩
  obtain ⟨d, hd⟩ := hyields.total ⟨hm, hn⟩
  rw [hd, (hyields.sound d hd).unique h MultisetGreater.ne (fun h => h.ne.symm) MultisetGreater.asymm]

/-- A comparison of values, each of which has a list of terms, is the multiset extension of the comparison
of terms. All of it is about values whose terms have weights that fit. -/
structure IsMultisetExtension {α : Type} (kbo : Kbo) (terms : α → List Term)
    (compare : α → α → Except Fault Comparison) : Prop where
  /-- There is an outcome. -/
  total : ∀ {a b}, kbo.AllFit (terms a) → kbo.AllFit (terms b) → ∃ c, compare a b = .ok c
  /-- Values are equal when their terms are, as multisets. -/
  eq_iff : ∀ {a b}, kbo.AllFit (terms a) → kbo.AllFit (terms b) →
    (compare a b = .ok .eq ↔ (terms a : Multiset Term) = terms b)
  /-- A value is greater when the other arises by exchanging some of its terms for smaller ones. -/
  gt_iff : ∀ {a b}, kbo.AllFit (terms a) → kbo.AllFit (terms b) →
    (compare a b = .ok .gt ↔ kbo.Exchanges (terms a) (terms b))
  /-- A value is smaller when it arises from the other in this way. -/
  lt_iff : ∀ {a b}, kbo.AllFit (terms a) → kbo.AllFit (terms b) →
    (compare a b = .ok .lt ↔ kbo.Exchanges (terms b) (terms a))
  /-- The order of the terms does not matter. -/
  perm : ∀ {a b a' b'}, kbo.AllFit (terms a) → kbo.AllFit (terms b) → (terms a).Perm (terms a') →
    (terms b).Perm (terms b') → compare a' b' = compare a b
  /-- The other way round the outcome is flipped. -/
  comm : ∀ {a b}, kbo.AllFit (terms a) → kbo.AllFit (terms b) →
    compare b a = (compare a b).map Comparison.flip
  /-- Greater values compose. -/
  trans : ∀ {a b d}, kbo.AllFit (terms a) → kbo.AllFit (terms b) → kbo.AllFit (terms d) →
    compare a b = .ok .gt → compare b d = .ok .gt → compare a d = .ok .gt
  /-- Values with ground terms are comparable. -/
  ground : ∀ {a b}, kbo.AllFit (terms a) → kbo.AllFit (terms b) →
    (∀ t ∈ terms a, t.isGround = true) → (∀ t ∈ terms b, t.isGround = true) →
    compare a b ≠ .ok .incomparable

/-- Comparing the lists of terms is the multiset extension, whatever values the lists belong to. -/
theorem isMultisetExtension {α : Type} (kbo : Kbo) (terms : α → List Term) :
    kbo.IsMultisetExtension terms fun a b => TermOrder.compareMultisets kbo (terms a) (terms b) where
  total ha hb := (kbo.compareMultisets_yields _ _).total ⟨ha, hb⟩
  eq_iff ha hb := by
    rw [compareMultisets_eq_ok_iff ha hb, Comparison.Tells.eq_outcome]
  gt_iff ha hb := by
    rw [compareMultisets_eq_ok_iff ha hb, Comparison.Tells.gt_outcome]
    exact (exchanges_iff fun t ht => ha t (Multiset.mem_coe.1 ht)).symm
  lt_iff ha hb := by
    rw [compareMultisets_eq_ok_iff ha hb, Comparison.Tells.lt_outcome]
    exact (exchanges_iff fun t ht => hb t (Multiset.mem_coe.1 ht)).symm
  perm {a b a' b'} ha hb hperm hperm' := by
    obtain ⟨c, hc⟩ := (kbo.compareMultisets_yields (terms a) (terms b)).total ⟨ha, hb⟩
    have htells := (compareMultisets_eq_ok_iff ha hb).1 hc
    rw [Multiset.coe_eq_coe.2 hperm, Multiset.coe_eq_coe.2 hperm'] at htells
    rw [hc]
    exact (compareMultisets_eq_ok_iff (fun t ht => ha t (hperm.mem_iff.2 ht))
      fun t ht => hb t (hperm'.mem_iff.2 ht)).2 htells
  comm {a b} ha hb := by
    obtain ⟨c, hc⟩ := (kbo.compareMultisets_yields (terms a) (terms b)).total ⟨ha, hb⟩
    have htells := (compareMultisets_eq_ok_iff ha hb).1 hc
    rw [hc]
    exact (compareMultisets_eq_ok_iff hb ha).2 (htells.flip eq_comm)
  trans ha hb hd hab hbd := by
    rw [compareMultisets_eq_ok_iff ha hb, Comparison.Tells.gt_outcome] at hab
    rw [compareMultisets_eq_ok_iff hb hd, Comparison.Tells.gt_outcome] at hbd
    exact (compareMultisets_eq_ok_iff ha hd).2 (.gt (hab.trans hbd))
  ground ha hb hga hgb h := by
    cases (compareMultisets_eq_ok_iff ha hb).1 h with
    | incomparable hne hgreater hless =>
      exact (kbo.multisetGreater_or_of_isGround hga hgb hne).elim hgreater hless

/-- The comparisons of lists of terms and of literals are the multiset extension of the comparison of terms,
whatever weights and precedences are set. -/
theorem compare_isMultisetExtension (kbo : Kbo) :
    kbo.IsMultisetExtension id (TermOrder.compareMultisets kbo) ∧
      kbo.IsMultisetExtension Literal.orderingTerms (TermOrder.compareLiterals kbo) :=
  ⟨kbo.isMultisetExtension id, kbo.isMultisetExtension Literal.orderingTerms⟩

/-- Members may be repeated: in `{f(a), b, b}` and `{b, a, a}` one `b` is common, and `f(a)` lies above both
copies of `a`. A negative literal lies above its complement, whose terms it counts twice. -/
theorem compare_isMultisetExtension_repeated :
    let kbo : Kbo := { weights := [(.function 0, 3)] }
    let m : List Term := [.app ⟨0, 1⟩ [.const 0], .const 1, .const 1]
    let n : List Term := [.const 1, .const 0, .const 0]
    let lit : Literal := .equation (.const 0) (.const 1) false
    (kbo.AllFit m ∧ kbo.AllFit n ∧ kbo.Exchanges m n ∧ TermOrder.compareMultisets kbo n m = .ok .lt) ∧
      kbo.AllFit lit.orderingTerms ∧ kbo.AllFit lit.complement.orderingTerms ∧
      kbo.Exchanges lit.orderingTerms lit.complement.orderingTerms ∧
      TermOrder.compareLiterals kbo lit.complement lit = .ok .lt := by
  intro kbo m n lit
  obtain ⟨hlists, hliterals⟩ := kbo.compare_isMultisetExtension
  have hm : ∀ t ∈ m, kbo.exactWeight t < weightBound := by decide +kernel
  have hn : ∀ t ∈ n, kbo.exactWeight t < weightBound := by decide +kernel
  have hlit : ∀ t ∈ lit.orderingTerms, kbo.exactWeight t < weightBound := by decide +kernel
  have hcomplement : ∀ t ∈ lit.complement.orderingTerms, kbo.exactWeight t < weightBound := by
    decide +kernel
  have hgt : TermOrder.compareMultisets kbo m n = .ok .gt := by decide +kernel
  have hgt' : TermOrder.compareLiterals kbo lit lit.complement = .ok .gt := by decide +kernel
  refine ⟨⟨hm, hn, (hlists.gt_iff hm hn).1 hgt, ?_⟩, hlit, hcomplement,
    (hliterals.gt_iff hlit hcomplement).1 hgt', ?_⟩
  · rw [hlists.comm hm hn, hgt]
    rfl
  · rw [hliterals.comm hlit hcomplement, hgt']
    rfl

end GivenClause.Kbo
