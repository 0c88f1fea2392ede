import GivenClause.Proofs.Order.MultisetOrder
import GivenClause.Proofs.Unify.Instances

/-! # Eligible literals as a property

A candidate literal is eligible when no other candidate, of its own sign under a selection, is greater.
The computed sets hold exactly the eligible literals. Since the order on literals is stable, a literal
that is eligible on an instance is eligible on the clause itself.

* `BelowOther` and `Clause.Eligible` are the properties;
* `Clause.eligibleForResolution_yields` and `Clause.eligibleForParamodulation_yields` tie the computed sets
  to them;
* `Clause.Eligible.of_instance`: eligibility shrinks under instantiation. -/

namespace GivenClause

/-! ## Literals below another -/

/-- A literal of the list at another index is greater; with `sameSign` only literals of the same sign
count. -/
def BelowOther (kbo : Kbo) (sameSign : Bool) (e : Literal × Nat) (ds : List (Literal × Nat)) : Prop :=
  ∃ d ∈ ds, d.2 ≠ e.2 ∧ (sameSign = true → d.1.isPositive = e.1.isPositive) ∧
    kbo.LiteralGreater d.1 e.1

theorem isBelowOther_yields (kbo : Kbo) (sameSign : Bool) (e : Literal × Nat)
    (ds : List (Literal × Nat)) :
    Yields (kbo.LiteralFits e.1 ∧ ∀ d ∈ ds, kbo.LiteralFits d.1) (isBelowOther kbo sameSign e ds)
      fun below => below = true ↔ BelowOther kbo sameSign e ds := by
  induction ds with
  | nil =>
    rw [isBelowOther]
    exact .ok (by simp [BelowOther])
  | cons d ds ih =>
    have hrest : BelowOther kbo sameSign e (d :: ds) ↔
        (d.2 ≠ e.2 ∧ (sameSign = true → d.1.isPositive = e.1.isPositive) ∧
          kbo.LiteralGreater d.1 e.1) ∨ BelowOther kbo sameSign e ds := by
      rw [BelowOther, List.exists_mem_cons_iff]
      rfl
    have hlater : Yields (kbo.LiteralFits e.1 ∧ ∀ u ∈ d :: ds, kbo.LiteralFits u.1)
        (isBelowOther kbo sameSign e ds) fun below => below = true ↔ BelowOther kbo sameSign e ds :=
      ih.mono (fun h => ⟨h.1, fun u hu => h.2 u (List.mem_cons_of_mem d hu)⟩) fun _ => id
    rw [isBelowOther]
    split
    · next hskip =>
      -- the literal itself and, under a selection, literals of the other sign do not count
      refine hlater.mono id fun below hbelow => ?_
      rw [hbelow, hrest, or_iff_right]
      rintro ⟨hindex, hsign, -⟩
      rcases hskip with h | ⟨h, h'⟩
      · exact hindex h
      · exact h' (hsign h)
    · next hskip =>
      rw [not_or, not_and, not_not] at hskip
      refine ((kbo.compareLiterals_yields e.1 d.1).mono
        (fun h => ⟨h.1, h.2 d List.mem_cons_self⟩) fun _ => id).bind fun c hc => ?_
      have hless := hc.eq_lt_iff (fun h => h.ne.symm) (fun h => h.asymm)
      split
      · next heq => exact .ok (iff_of_true rfl (hrest.2 (Or.inl ⟨hskip.1, hskip.2, hless.1 heq⟩)))
      · next hne =>
        refine hlater.mono id fun below hbelow => ?_
        rw [hbelow, hrest, or_iff_right]
        exact fun h => hne (hless.2 h.2.2)

/-- Literals are taken out of the set exactly when they are below another. -/
theorem eraseBelow_yields (kbo : Kbo) (sameSign : Bool) (all : List (Literal × Nat))
    (set : LiteralSet) (es : List (Literal × Nat)) :
    Yields ((∀ d ∈ all, kbo.LiteralFits d.1) ∧ ∀ e ∈ es, kbo.LiteralFits e.1)
      (eraseBelow kbo sameSign all set es)
      fun left => ∀ i, left.contains i = true ↔ set.contains i = true ∧
        ∀ e ∈ es, e.2 = i → ¬ BelowOther kbo sameSign e all := by
  induction es generalizing set with
  | nil =>
    rw [eraseBelow]
    exact .ok (by simp)
  | cons e es ih =>
    rw [eraseBelow]
    refine ((isBelowOther_yields kbo sameSign e all).mono
      (fun h => ⟨h.2 e List.mem_cons_self, h.1⟩) fun _ => id).bind fun below hbelow => ?_
    refine (ih _).mono (fun h => ⟨h.1, fun u hu => h.2 u (List.mem_cons_of_mem e hu)⟩) ?_
    intro left hleft i
    -- what the rest of the list takes out is the same on both sides
    rw [hleft i, List.forall_mem_cons, ← and_assoc, and_congr_left_iff]
    intro _
    split
    · next h =>
      rw [LiteralSet.contains_erase, Bool.and_eq_true, decide_eq_true_iff]
      refine and_congr_right fun _ => ⟨fun hne heq => absurd heq.symm hne, fun hnot heq => ?_⟩
      exact hnot heq.symm (hbelow.1 h)
    · next h => exact ⟨fun hi => ⟨hi, fun _ hnot => h (hbelow.2 hnot)⟩, And.left⟩

/-! ## Eligible literals -/

theorem mem_literalsIn {set : LiteralSet} {literals : List Literal} {e : Literal × Nat} :
    e ∈ literalsIn set literals ↔ literals[e.2]? = some e.1 ∧ set.contains e.2 = true := by
  rw [literalsIn, List.mem_filter, List.mem_zipIdx_iff_getElem?]

/-- The literal at an index may be used, given the literals of an instance: it is a candidate, and no other
candidate is greater. -/
structure Clause.Eligible (clause : Clause) (kbo : Kbo) (literals : List Literal) (i : Nat) :
    Prop where
  /-- It is a candidate. -/
  candidate : clause.candidates.contains i = true
  /-- No other candidate is greater. -/
  maximal : ∀ lit, literals[i]? = some lit →
    ¬ BelowOther kbo (!clause.selected.isEmpty) (lit, i) (literalsIn clause.candidates literals)

namespace Clause

/-- The literals to resolve upon are the eligible ones. -/
theorem eligibleForResolution_yields (clause : Clause) (kbo : Kbo) (σ : Substitution) (scope : Nat) :
    Yields (∀ lit ∈ clause.instanceLiterals σ scope, kbo.LiteralFits lit)
      (clause.eligibleForResolution kbo σ scope)
      fun set => ∀ i, set.contains i = true ↔
        clause.Eligible kbo (clause.instanceLiterals σ scope) i := by
  rw [eligibleForResolution]
  refine (eraseBelow_yields kbo _ _ _ _).mono (fun h => ?_) fun set hset i => ?_
  · have hmembers : ∀ e ∈ literalsIn clause.candidates (clause.instanceLiterals σ scope),
        kbo.LiteralFits e.1 := fun e he => h e.1 (List.mem_of_getElem? (mem_literalsIn.1 he).1)
    exact ⟨hmembers, hmembers⟩
  · rw [hset i]
    constructor
    · rintro ⟨hcandidate, hmaximal⟩
      refine ⟨hcandidate, fun lit hlit => hmaximal (lit, i) ?_ rfl⟩
      exact mem_literalsIn.2 ⟨hlit, hcandidate⟩
    · rintro ⟨hcandidate, hmaximal⟩
      refine ⟨hcandidate, ?_⟩
      rintro e he rfl
      exact hmaximal e.1 (mem_literalsIn.1 he).1

/-- The literals that rewrite are the eligible positive ones of a clause without a selection. -/
theorem eligibleForParamodulation_yields (clause : Clause) (kbo : Kbo) (σ : Substitution)
    (scope : Nat) :
    Yields (∀ lit ∈ clause.instanceLiterals σ scope, kbo.LiteralFits lit)
      (clause.eligibleForParamodulation kbo σ scope)
      fun set => ∀ i, set.contains i = true ↔ clause.selected.isEmpty = true ∧
        clause.positiveLiterals.contains i = true ∧
        clause.Eligible kbo (clause.instanceLiterals σ scope) i := by
  rw [eligibleForParamodulation]
  split
  · next hselected =>
    refine (clause.eligibleForResolution_yields kbo σ scope).bind fun set hset => .ok fun i => ?_
    rw [LiteralSet.contains_inter, Bool.and_eq_true, hset i, hselected]
    exact ⟨fun h => ⟨rfl, h.2, h.1⟩, fun h => ⟨h.2.2, h.2.1⟩⟩
  · next hselected => exact .ok fun i => by simp [hselected]

end Clause

/-! ## Instances -/

/-- A literal that is below another stays so on instances. -/
theorem BelowOther.bind {kbo : Kbo} {sameSign : Bool} {e : Literal × Nat} {set : LiteralSet}
    {literals : List Literal} (h : BelowOther kbo sameSign e (literalsIn set literals))
    (θ : Nat → Term) :
    BelowOther kbo sameSign (e.1.mapTerms (TermOver.bind θ), e.2)
      (literalsIn set (literals.map (Literal.mapTerms (TermOver.bind θ)))) := by
  obtain ⟨d, hd, hindex, hsign, hgreater⟩ := h
  obtain ⟨hget, hset⟩ := mem_literalsIn.1 hd
  refine ⟨(d.1.mapTerms (TermOver.bind θ), d.2), mem_literalsIn.2 ⟨?_, hset⟩, hindex, ?_,
    hgreater.bind θ⟩
  · rw [List.getElem?_map, hget, Option.map_some]
  · rw [Literal.isPositive_mapTerms, Literal.isPositive_mapTerms]
    exact hsign

/-- A literal that is eligible on an instance is eligible on the clause. -/
theorem Clause.Eligible.of_instance {clause : Clause} {kbo : Kbo} {literals : List Literal} {i : Nat}
    {θ : Nat → Term}
    (h : clause.Eligible kbo (literals.map (Literal.mapTerms (TermOver.bind θ))) i) :
    clause.Eligible kbo literals i := by
  refine ⟨h.candidate, fun lit hlit hbelow => ?_⟩
  refine h.maximal (lit.mapTerms (TermOver.bind θ)) ?_ (hbelow.bind θ)
  rw [List.getElem?_map, hlit, Option.map_some]

end GivenClause
