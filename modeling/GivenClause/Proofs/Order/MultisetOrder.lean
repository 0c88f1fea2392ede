import Mathlib.Algebra.Order.Group.Multiset
import Mathlib.Algebra.Order.Sub.Basic
import Mathlib.Data.Multiset.OrderedMonoid
import Mathlib.Order.Preorder.Finite
import GivenClause.Order.Multiset
import GivenClause.Proofs.Data.Lists
import GivenClause.Proofs.Order.KnuthBendixOrder

/-! # The multiset extension as a relation

One multiset is greater than another when the other arises from it by exchanging some members, at least
one, for smaller ones (Dershowitz and Manna). Which members are exchanged does not matter: common members
may be cancelled first, and that is what the comparison of lists does.

* `Kbo.MultisetGreater` is the relation, `Kbo.multisetGreater_iff` its form after cancelling;
* `Kbo.compareMultisets_yields` and `Kbo.compareLiterals_yields` tie the computations to it;
* `Kbo.MultisetGreater.map_bind` and `Kbo.LiteralGreater.bind` say that it is stable. -/

namespace GivenClause.Kbo

/-! ## The relation -/

/-- Every member of the second multiset lies below some member of the first. -/
def Dominates (kbo : Kbo) (X Y : Multiset Term) : Prop :=
  ∀ y ∈ Y, ∃ x ∈ X, kbo.Greater x y

/-- The first multiset is greater: the second arises from it by exchanging some members, at least one,
for smaller ones. -/
def MultisetGreater (kbo : Kbo) (M N : Multiset Term) : Prop :=
  ∃ Z X Y, X ≠ 0 ∧ M = Z + X ∧ N = Z + Y ∧ kbo.Dominates X Y

/-- A common member may be cancelled: what it dominates, the member above it dominates too. -/
theorem Dominates.cancel {kbo : Kbo} {c : Term} {X Y : Multiset Term}
    (h : kbo.Dominates (c ::ₘ X) (c ::ₘ Y)) : X ≠ 0 ∧ kbo.Dominates X Y := by
  obtain ⟨above, habove, hgreater⟩ := h c (Multiset.mem_cons_self c Y)
  have hmem : above ∈ X := (Multiset.mem_cons.1 habove).resolve_left hgreater.ne
  refine ⟨fun hX => ?_, fun y hy => ?_⟩
  · rw [hX] at hmem
    exact Multiset.notMem_zero above hmem
  · obtain ⟨x, hx, hxy⟩ := h y (Multiset.mem_cons_of_mem hy)
    rcases Multiset.mem_cons.1 hx with rfl | hx
    · exact ⟨above, hmem, hgreater.trans hxy⟩
    · exact ⟨x, hx, hxy⟩

/-- All common members may be cancelled. -/
theorem Dominates.cancel_add {kbo : Kbo} {W X Y : Multiset Term} (hne : W + X ≠ 0)
    (h : kbo.Dominates (W + X) (W + Y)) : X ≠ 0 ∧ kbo.Dominates X Y := by
  induction W using Multiset.induction_on with
  | empty =>
    rw [zero_add] at hne h
    rw [zero_add] at h
    exact ⟨hne, h⟩
  | cons c W ih =>
    rw [Multiset.cons_add, Multiset.cons_add] at h
    obtain ⟨hne, h⟩ := h.cancel
    exact ih hne h

/-- Whether one multiset is greater is seen after cancelling common members. -/
theorem multisetGreater_iff {kbo : Kbo} {M N : Multiset Term} :
    kbo.MultisetGreater M N ↔ M - N ≠ 0 ∧ kbo.Dominates (M - N) (N - M) := by
  constructor
  · rintro ⟨Z, X, Y, hX, rfl, rfl, hdominates⟩
    -- `Z` cancels at once; what the exchanged parts share cancels by domination
    rw [add_tsub_add_eq_tsub_left, add_tsub_add_eq_tsub_left]
    have hsplitX : X ∩ Y + (X - Y) = X := by rw [add_comm, Multiset.sub_add_inter]
    have hsplitY : X ∩ Y + (Y - X) = Y := by
      rw [add_comm, Multiset.inter_comm, Multiset.sub_add_inter]
    refine Dominates.cancel_add (W := X ∩ Y) ?_ ?_
    · rwa [hsplitX]
    · rwa [hsplitX, hsplitY]
  · rintro ⟨hne, hdominates⟩
    refine ⟨M ∩ N, M - N, N - M, hne, ?_, ?_, hdominates⟩
    · rw [add_comm, Multiset.sub_add_inter]
    · rw [add_comm, Multiset.inter_comm, Multiset.sub_add_inter]

/-- Multisets without a difference are equal. -/
theorem eq_of_sub_eq_zero {M N : Multiset Term} (h : M - N = 0) (h' : N - M = 0) : M = N :=
  le_antisymm (tsub_eq_zero_iff_le.1 h) (tsub_eq_zero_iff_le.1 h')

/-- Between different multisets the remaining members decide. -/
theorem multisetGreater_iff_dominates {kbo : Kbo} {M N : Multiset Term} (hne : M ≠ N) :
    kbo.MultisetGreater M N ↔ kbo.Dominates (M - N) (N - M) := by
  rw [multisetGreater_iff]
  refine ⟨And.right, fun h => ⟨fun hzero => hne (eq_of_sub_eq_zero hzero ?_), h⟩⟩
  -- nothing dominates only nothing
  rw [hzero] at h
  refine Multiset.eq_zero_of_forall_notMem fun y hy => ?_
  obtain ⟨x, hx, -⟩ := h y hy
  exact Multiset.notMem_zero x hx

/-- In a multiset with members one of them has none above it. -/
theorem exists_maximal (kbo : Kbo) {X : Multiset Term} (hX : X ≠ 0) :
    ∃ x ∈ X, ∀ y ∈ X, ¬ kbo.Greater y x := by
  let above : LE Term := ⟨fun s t => kbo.Greater t s⟩
  have htrans : IsTrans Term (· ≤ ·) := ⟨fun _ _ _ hst htu => Greater.trans htu hst⟩
  obtain ⟨x, hx, hmax⟩ := X.toFinset.exists_maximal (Multiset.toFinset_nonempty.2 hX)
  refine ⟨x, Multiset.mem_toFinset.1 hx, fun y hy hyx => ?_⟩
  exact hyx.asymm (hmax (Multiset.mem_toFinset.2 hy) hyx)

/-- A multiset is not both above and below another. -/
theorem MultisetGreater.asymm {kbo : Kbo} {M N : Multiset Term} (h : kbo.MultisetGreater M N) :
    ¬ kbo.MultisetGreater N M := by
  intro h'
  obtain ⟨hX, hXY⟩ := multisetGreater_iff.1 h
  obtain ⟨-, hYX⟩ := multisetGreater_iff.1 h'
  -- two steps up from a member with none above it
  obtain ⟨x, hx, hmax⟩ := kbo.exists_maximal hX
  obtain ⟨y, hy, hyx⟩ := hYX x hx
  obtain ⟨x', hx', hxy⟩ := hXY y hy
  exact hmax x' hx' (hxy.trans hyx)

theorem MultisetGreater.ne {kbo : Kbo} {M N : Multiset Term} (h : kbo.MultisetGreater M N) :
    M ≠ N := by
  rintro rfl
  exact h.asymm h

/-- The relation is stable: it holds of instances. -/
theorem MultisetGreater.map_bind {kbo : Kbo} {M N : Multiset Term} (h : kbo.MultisetGreater M N)
    (θ : Nat → Term) :
    kbo.MultisetGreater (M.map (TermOver.bind θ)) (N.map (TermOver.bind θ)) := by
  obtain ⟨Z, X, Y, hX, rfl, rfl, hdominates⟩ := h
  refine ⟨Z.map (TermOver.bind θ), X.map (TermOver.bind θ), Y.map (TermOver.bind θ), ?_,
    Multiset.map_add _ _ _, Multiset.map_add _ _ _, ?_⟩
  · rwa [Ne, Multiset.map_eq_zero]
  · intro y hy
    obtain ⟨u, hu, rfl⟩ := Multiset.mem_map.1 hy
    obtain ⟨x, hx, hxu⟩ := hdominates u hu
    exact ⟨x.bind θ, Multiset.mem_map_of_mem _ hx, hxu.bind θ⟩

/-! ## What the comparison computes -/

/-- Cancelling counts down. The list `p` is the part of the second list that was gone through. -/
theorem count_cancelCommon_foldl {m : List Term} (n a b p : List Term)
    (ha : ∀ u, a.count u = m.count u - p.count u) (hb : ∀ u, b.count u = p.count u - m.count u)
    (u : Term) :
    let rest := n.foldl
      (fun rest t =>
        match swapRemoveFirst? rest.1 t with
        | some m => (m, rest.2)
        | none => (rest.1, rest.2 ++ [t]))
      (a, b)
    rest.1.count u = m.count u - (p ++ n).count u ∧
      rest.2.count u = (p ++ n).count u - m.count u := by
  induction n generalizing a b p with
  | nil =>
    rw [List.append_nil]
    exact ⟨ha u, hb u⟩
  | cons t n ih =>
    have happend : p ++ t :: n = (p ++ [t]) ++ n := by simp
    rw [happend, List.foldl_cons]
    dsimp only
    have hat := ha t
    have hone : [t].count t = 1 := List.count_singleton_self
    cases hremoved : swapRemoveFirst? a t with
    | none =>
      -- all copies of `t` in the first list are used up, so this one remains in the second
      have hnone : a.count t = 0 := List.count_eq_zero.2 (swapRemoveFirst?_eq_none_iff.1 hremoved)
      refine ih a (b ++ [t]) (p ++ [t]) (fun v => ?_) fun v => ?_
      all_goals
        have hav := ha v
        have hbv := hb v
        simp only [List.count_append]
        by_cases hv : v = t
        · subst hv
          omega
        · have hzero : [t].count v = 0 := List.count_eq_zero.2 (by simpa using hv)
          omega
    | some rest =>
      have hperm := cons_swapRemoveFirst?_perm hremoved
      have hsome : 0 < a.count t := List.count_pos_iff.2 (hperm.subset List.mem_cons_self)
      refine ih rest b (p ++ [t]) (fun v => ?_) fun v => ?_
      all_goals
        have hav := ha v
        have hbv := hb v
        have hcount : a.count v = [t].count v + rest.count v := by
          rw [← hperm.count_eq v, ← List.singleton_append, List.count_append]
        simp only [List.count_append]
        by_cases hv : v = t
        · subst hv
          omega
        · have hzero : [t].count v = 0 := List.count_eq_zero.2 (by simpa using hv)
          omega

/-- Cancelling leaves the two differences. -/
theorem cancelCommon_eq (m n : List Term) :
    ((TermOrder.cancelCommon m n).1 : Multiset Term) = m - n ∧
      ((TermOrder.cancelCommon m n).2 : Multiset Term) = n - m := by
  have h := count_cancelCommon_foldl (m := m) n m [] [] (fun u => by simp) fun u => by simp
  constructor
  · ext u
    rw [Multiset.count_sub, Multiset.coe_count, Multiset.coe_count, Multiset.coe_count]
    exact (h u).1
  · ext u
    rw [Multiset.count_sub, Multiset.coe_count, Multiset.coe_count, Multiset.coe_count]
    exact (h u).2

/-- The weights of all listed terms fit. -/
def AllFit (kbo : Kbo) (ts : List Term) : Prop :=
  ∀ t ∈ ts, kbo.Fits t

theorem anyGreater_yields (kbo : Kbo) (y : Term) (xs : List Term) :
    Yields (kbo.AllFit xs ∧ kbo.Fits y) (TermOrder.anyGreater kbo y xs)
      fun answer => answer = true ↔ ∃ x ∈ xs, kbo.Greater x y := by
  induction xs with
  | nil =>
    rw [TermOrder.anyGreater]
    exact .ok (by simp)
  | cons x xs ih =>
    rw [TermOrder.anyGreater]
    refine ((kbo.compare_yields x y).mono (fun h => ⟨h.1 x List.mem_cons_self, h.2⟩)
      fun _ => id).bind fun c hc => ?_
    have hgreater := hc.eq_gt_iff (fun h => h.ne) (fun h => h.asymm)
    split
    · next heq => exact .ok (by simp [hgreater.1 heq])
    · next hne =>
      have hnot : ¬ kbo.Greater x y := mt hgreater.2 hne
      refine ih.mono (fun h => ⟨fun u hu => h.1 u (List.mem_cons_of_mem x hu), h.2⟩) ?_
      intro answer hanswer
      rw [hanswer]
      simp [hnot]

theorem dominates_yields (kbo : Kbo) (xs ys : List Term) :
    Yields (kbo.AllFit xs ∧ kbo.AllFit ys) (TermOrder.dominates kbo xs ys)
      fun answer => answer = true ↔ kbo.Dominates xs ys := by
  induction ys with
  | nil =>
    rw [TermOrder.dominates]
    exact .ok (by simp [Dominates])
  | cons y ys ih =>
    rw [TermOrder.dominates]
    refine ((kbo.anyGreater_yields y xs).mono (fun h => ⟨h.1, h.2 y List.mem_cons_self⟩)
      fun _ => id).bind fun some hsome => ?_
    split
    · next heq =>
      refine ih.mono (fun h => ⟨h.1, fun u hu => h.2 u (List.mem_cons_of_mem y hu)⟩) ?_
      intro answer hanswer
      rw [hanswer]
      simpa [Dominates] using fun _ => hsome.1 heq
    · next hne =>
      refine .ok (iff_of_false Bool.false_ne_true fun h => hne (hsome.2 ?_))
      simpa using h y (by simp)

/-- Lists of terms compare as their multisets. -/
theorem compareMultisets_yields (kbo : Kbo) (m n : List Term) :
    Yields (kbo.AllFit m ∧ kbo.AllFit n) (TermOrder.compareMultisets kbo m n)
      (Comparison.Tells ((m : Multiset Term) = n) (kbo.MultisetGreater m n)
        (kbo.MultisetGreater n m)) := by
  obtain ⟨hm, hn⟩ := cancelCommon_eq m n
  have hfits : kbo.AllFit m ∧ kbo.AllFit n →
      kbo.AllFit (TermOrder.cancelCommon m n).1 ∧ kbo.AllFit (TermOrder.cancelCommon m n).2 := by
    rintro ⟨hfm, hfn⟩
    refine ⟨fun t ht => hfm t ?_, fun t ht => hfn t ?_⟩
    · rw [← Multiset.mem_coe, hm] at ht
      exact Multiset.mem_coe.1 (Multiset.mem_of_le (Multiset.sub_le_self _ _) ht)
    · rw [← Multiset.mem_coe, hn] at ht
      exact Multiset.mem_coe.1 (Multiset.mem_of_le (Multiset.sub_le_self _ _) ht)
  rw [TermOrder.compareMultisets]
  split
  · next heq =>
    rw [heq, Multiset.coe_nil] at hm hn
    exact .ok (.eq (eq_of_sub_eq_zero hm.symm hn.symm))
  · next mRest nRest hrest heq =>
    rw [heq] at hm hn hfits
    have hne : (m : Multiset Term) ≠ n := by
      intro hmn
      rw [hmn, tsub_self, Multiset.coe_eq_zero] at hm hn
      exact hrest hm hn
    refine ((kbo.dominates_yields mRest nRest).mono hfits fun _ => id).bind fun above habove => ?_
    rw [hm, hn, ← multisetGreater_iff_dominates hne] at habove
    split
    · next h => exact .ok (.gt (habove.1 h))
    · next h =>
      refine ((kbo.dominates_yields nRest mRest).mono (fun h => (hfits h).symm)
        fun _ => id).bind fun below hbelow => ?_
      rw [hm, hn, ← multisetGreater_iff_dominates hne.symm] at hbelow
      split
      · next h' => exact .ok (.lt (hbelow.1 h'))
      · next h' => exact .ok (.incomparable hne (mt habove.2 h) (mt hbelow.2 h'))

/-! ## Literals -/

/-- The first literal is greater: its multiset of terms is. -/
def LiteralGreater (kbo : Kbo) (a b : Literal) : Prop :=
  kbo.MultisetGreater a.orderingTerms b.orderingTerms

/-- The weights of the terms of a literal fit. -/
def LiteralFits (kbo : Kbo) (lit : Literal) : Prop :=
  kbo.AllFit lit.terms

/-- Literals compare as the relation says. -/
theorem compareLiterals_yields (kbo : Kbo) (a b : Literal) :
    Yields (kbo.LiteralFits a ∧ kbo.LiteralFits b) (TermOrder.compareLiterals kbo a b)
      (Comparison.Tells ((a.orderingTerms : Multiset Term) = b.orderingTerms)
        (kbo.LiteralGreater a b) (kbo.LiteralGreater b a)) :=
  (kbo.compareMultisets_yields a.orderingTerms b.orderingTerms).mono
    (fun h => ⟨fun t ht => h.1 t (Literal.mem_orderingTerms.1 ht),
      fun t ht => h.2 t (Literal.mem_orderingTerms.1 ht)⟩) fun _ => id

/-- The order on literals is stable: it holds of instances. -/
theorem LiteralGreater.bind {kbo : Kbo} {a b : Literal} (h : kbo.LiteralGreater a b)
    (θ : Nat → Term) :
    kbo.LiteralGreater (a.mapTerms (TermOver.bind θ)) (b.mapTerms (TermOver.bind θ)) := by
  rw [LiteralGreater, Literal.orderingTerms_mapTerms, Literal.orderingTerms_mapTerms]
  exact MultisetGreater.map_bind h θ

end GivenClause.Kbo
