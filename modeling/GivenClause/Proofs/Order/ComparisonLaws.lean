import GivenClause.Proofs.Order.KnuthBendixOrder
import GivenClause.Proofs.Unify.Instances

/-! # Laws of the term comparison

Comparing two terms in 64-bit arithmetic either stops at a weight that does not fit, or tells how the
terms are related. Which of the two happens does not depend on the order of the terms, so comparisons
mirror each other, faults included. A chain of greater terms never leads to a fault, and an instance of
two terms compares as the terms do.

* `Kbo.CompareOutcome` lists what a comparison can give, `Kbo.compare_outcome` says that this is all;
* `Kbo.compare_strictOrder`: comparisons mirror each other and follow a strict order;
* `Kbo.compare_instantiate`: what is decided of two terms is decided alike of their instances. -/

namespace GivenClause

namespace Kbo

/-! ## What a comparison gives -/

/-- The outcome of a comparison says how two terms are related. -/
def Tells (kbo : Kbo) (s t : Term) (c : Comparison) : Prop :=
  c.Tells (s = t) (kbo.Greater s t) (kbo.Greater t s)

namespace Tells

variable {kbo : Kbo} {s t : Term} {c c' : Comparison}

/-- With the terms exchanged the outcome is flipped. -/
theorem flip (h : kbo.Tells s t c) : kbo.Tells t s c.flip :=
  Comparison.Tells.flip h eq_comm

theorem eq_iff (h : kbo.Tells s t c) : c = .eq ↔ s = t :=
  h.eq_eq_iff Greater.ne fun hless => hless.ne.symm

theorem gt_iff (h : kbo.Tells s t c) : c = .gt ↔ kbo.Greater s t :=
  h.eq_gt_iff Greater.ne Greater.asymm

theorem lt_iff (h : kbo.Tells s t c) : c = .lt ↔ kbo.Greater t s :=
  h.eq_lt_iff (fun hless => hless.ne.symm) Greater.asymm

/-- Two terms are related in one way only. -/
theorem unique (h : kbo.Tells s t c) (h' : kbo.Tells s t c') : c = c' :=
  Comparison.Tells.unique h h' Greater.ne (fun hless => hless.ne.symm) Greater.asymm

/-- Instances are related as the terms are, unless these are incomparable. -/
theorem bind (h : kbo.Tells s t c) (hc : c ≠ .incomparable) (θ : Nat → Term) :
    kbo.Tells (s.bind θ) (t.bind θ) c := by
  cases h with
  | eq h => exact .eq (congrArg (TermOver.bind θ) h)
  | gt h => exact .gt (h.bind θ)
  | lt h => exact .lt (h.bind θ)
  | incomparable => exact absurd rfl hc

end Tells

/-- A comparison stops at a weight that does not fit, in one direction or the other. -/
def CompareOverflows (kbo : Kbo) (s t : Term) : Prop :=
  s ≠ t ∧ (kbo.Overflows s t ∨ kbo.Overflows t s)

theorem compareOverflows_comm {kbo : Kbo} {s t : Term} :
    kbo.CompareOverflows s t ↔ kbo.CompareOverflows t s :=
  and_congr ne_comm or_comm

/-- Weights that fit stop no decision. -/
theorem not_overflows {kbo : Kbo} {s t : Term} (hs : kbo.Fits s) (ht : kbo.Fits t) :
    ¬ kbo.Overflows s t :=
  fun h => h.heavy.elim (Nat.not_le.2 hs) (Nat.not_le.2 ht)

/-- Weights that fit stop no comparison. -/
theorem not_compareOverflows {kbo : Kbo} {s t : Term} (hs : kbo.Fits s) (ht : kbo.Fits t) :
    ¬ kbo.CompareOverflows s t :=
  fun h => h.2.elim (not_overflows hs ht) (not_overflows ht hs)

/-- Where no weight stops the decision, the weights that it looks at fit. -/
theorem fits_of_not_overflows {kbo : Kbo} {s t : Term} (hs : s.isVar = false) (ht : t.isVar = false)
    (h : ¬ kbo.Overflows s t) (hcovers : Covers s t) : kbo.Fits s ∧ kbo.Fits t := by
  rw [Fits, Fits, ← Nat.not_le, ← Nat.not_le, ← not_or]
  exact fun heavy => h ⟨hs, ht, hcovers, heavy⟩

/-- Deciding `s > t` looks at the weights as soon as the variables allow it. -/
theorem Overflows.of_covers {kbo : Kbo} {s t : Term} (h : kbo.Overflows t s) (hcovers : Covers s t) :
    kbo.Overflows s t :=
  ⟨h.right, h.left, hcovers, h.heavy.symm⟩

/-- What comparing two terms gives: a fault where a weight does not fit, otherwise how they are
related. -/
inductive CompareOutcome (kbo : Kbo) (s t : Term) : Except Fault Comparison → Prop where
  /-- A weight does not fit. -/
  | overflow (h : kbo.CompareOverflows s t) : CompareOutcome kbo s t (.error .weightOverflow)
  /-- The outcome says how the terms are related. -/
  | decided (fits : ¬ kbo.CompareOverflows s t) {c : Comparison} (h : kbo.Tells s t c) :
    CompareOutcome kbo s t (.ok c)

/-- A comparison has one of the listed outcomes. -/
theorem compare_outcome (kbo : Kbo) (s t : Term) : CompareOutcome kbo s t (kbo.compare s t) := by
  rw [compare]
  split
  · next heq => exact .decided (fun h => h.1 heq) (.eq heq)
  · next hne =>
    generalize habove : kbo.greater s t = above
    cases habove ▸ kbo.greater_outcome s t with
    | overflow h => exact .overflow ⟨hne, Or.inl h⟩
    | @decided hfits answer hanswer =>
      cases answer with
      | true =>
        -- the other direction is not looked at; it would need the same weights
        have hgreater := hanswer.1 rfl
        refine .decided ?_ (.gt hgreater)
        rintro ⟨-, h | h⟩
        · exact hfits h
        · exact hfits (h.of_covers hgreater.covers)
      | false =>
        have hnot : ¬ kbo.Greater s t := fun h => Bool.false_ne_true (hanswer.2 h)
        generalize hbelow : kbo.greater t s = below
        cases hbelow ▸ kbo.greater_outcome t s with
        | overflow h => exact .overflow ⟨hne, Or.inr h⟩
        | @decided hfits' answer' hanswer' =>
          have hboth : ¬ kbo.CompareOverflows s t := fun h => h.2.elim hfits hfits'
          cases answer' with
          | true => exact .decided hboth (.lt (hanswer'.1 rfl))
          | false =>
            exact .decided hboth
              (.incomparable hne hnot fun h => Bool.false_ne_true (hanswer'.2 h))

namespace CompareOutcome

variable {kbo : Kbo} {s t : Term} {result result' : Except Fault Comparison}

/-- With the terms exchanged the outcome is flipped and a fault stays. -/
theorem flip (h : CompareOutcome kbo s t result) :
    CompareOutcome kbo t s (result.map Comparison.flip) := by
  cases h with
  | overflow h => exact .overflow (compareOverflows_comm.1 h)
  | decided hfits h => exact .decided (fun h' => hfits (compareOverflows_comm.2 h')) h.flip

/-- Terms have one outcome only. -/
theorem unique (h : CompareOutcome kbo s t result) (h' : CompareOutcome kbo s t result') :
    result = result' := by
  cases h with
  | overflow h =>
    cases h' with
    | overflow => rfl
    | decided hfits => exact absurd h hfits
  | decided hfits h =>
    cases h' with
    | overflow h' => exact absurd h' hfits
    | decided _ h' => exact congrArg Except.ok (h.unique h')

end CompareOutcome

/-- A comparison has a result exactly when no weight that does not fit is looked at and the result says
how the terms are related. -/
theorem compare_eq_ok_iff {kbo : Kbo} {s t : Term} {c : Comparison} :
    kbo.compare s t = .ok c ↔ ¬ kbo.CompareOverflows s t ∧ kbo.Tells s t c := by
  constructor
  · intro h
    cases h ▸ kbo.compare_outcome s t with
    | decided hfits htells => exact ⟨hfits, htells⟩
  · rintro ⟨hfits, h⟩
    exact (kbo.compare_outcome s t).unique (.decided hfits h)

/-- A comparison that stops has met a weight that does not fit. -/
theorem compare_eq_error_iff {kbo : Kbo} {s t : Term} {fault : Fault} :
    kbo.compare s t = .error fault ↔ fault = .weightOverflow ∧ kbo.CompareOverflows s t := by
  constructor
  · intro h
    cases h ▸ kbo.compare_outcome s t with
    | overflow hoverflows => exact ⟨rfl, hoverflows⟩
  · rintro ⟨rfl, h⟩
    exact (kbo.compare_outcome s t).unique (.overflow h)

/-! ## A strict order -/

/-- Comparing the other way round gives the flipped outcome or the same fault. -/
theorem compare_comm (kbo : Kbo) (s t : Term) :
    kbo.compare t s = (kbo.compare s t).map Comparison.flip :=
  (kbo.compare_outcome t s).unique (kbo.compare_outcome s t).flip

/-- What is greater than some term is no variable. -/
theorem Greater.isVar_eq_false {kbo : Kbo} {s t : Term} (h : kbo.Greater s t) : s.isVar = false := by
  cases s with
  | var x => exact absurd h Greater.not_var
  | const c => rfl
  | app f args => rfl

/-- The weights of two terms fit where one is found greater than the other, which is no variable. -/
theorem fits_of_compare_eq_gt {kbo : Kbo} {s t : Term} (h : kbo.compare s t = .ok .gt)
    (ht : t.isVar = false) : kbo.Fits s ∧ kbo.Fits t := by
  obtain ⟨hfits, htells⟩ := compare_eq_ok_iff.1 h
  have hgreater := htells.gt_iff.1 rfl
  exact fits_of_not_overflows hgreater.isVar_eq_false ht
    (fun hoverflows => hfits ⟨hgreater.ne, Or.inl hoverflows⟩) hgreater.covers

/-- Greater terms compose, without a fault. -/
theorem compare_trans {kbo : Kbo} {s t u : Term} (hst : kbo.compare s t = .ok .gt)
    (htu : kbo.compare t u = .ok .gt) : kbo.compare s u = .ok .gt := by
  have hgreater := (compare_eq_ok_iff.1 hst).2.gt_iff.1 rfl
  have hgreater' := (compare_eq_ok_iff.1 htu).2.gt_iff.1 rfl
  obtain ⟨hs, ht⟩ := fits_of_compare_eq_gt hst hgreater'.isVar_eq_false
  -- the third term weighs no more than the second
  have hu : kbo.Fits u := hgreater'.exactWeight_le.trans_lt ht
  exact compare_eq_ok_iff.2 ⟨not_compareOverflows hs hu, .gt (hgreater.trans hgreater')⟩

/-- The comparison is that of a strict order, whatever weights and precedences are set:

* the other way round it gives the flipped outcome, or the same fault, which is always that of a weight
  that does not fit;
* only a term and itself are equal;
* greater terms compose, and the composed comparison does not fault. -/
theorem compare_strictOrder (kbo : Kbo) (s t u : Term) :
    (kbo.compare t s = (kbo.compare s t).map Comparison.flip ∧
      (kbo.compare s t = .error .weightOverflow ↔ kbo.compare t s = .error .weightOverflow) ∧
      ∀ fault, kbo.compare s t = .error fault → fault = .weightOverflow) ∧
    (kbo.compare s t = .ok .eq ↔ s = t) ∧
    (kbo.compare s t = .ok .gt → kbo.compare t u = .ok .gt → kbo.compare s u = .ok .gt) := by
  refine ⟨⟨kbo.compare_comm s t, ?_, ?_⟩, ?_, compare_trans⟩
  · simp only [compare_eq_error_iff, true_and]
    exact compareOverflows_comm
  · exact fun fault h => (compare_eq_error_iff.1 h).1
  · constructor
    · exact fun h => (compare_eq_ok_iff.1 h).2.eq_iff.1 rfl
    · intro heq
      exact compare_eq_ok_iff.2 ⟨fun hoverflows => hoverflows.1 heq, .eq heq⟩

/-- A function of weight zero, which counts as one, and a constant of higher precedence. -/
def zeroWeight : Kbo where
  weights := [(.function 0, 0)]
  precedences := [(.constant 0, 7)]

/-- A chain `f(f(x, a), y) > f(x, a) > x` in which a weight, and then a variable, decides; the chain is
read backwards as well. -/
theorem compare_strictOrder_chain :
    let t : Term := .app ⟨0, 2⟩ [.var 0, .const 0]
    let s : Term := .app ⟨0, 2⟩ [t, .var 1]
    zeroWeight.compare s t = .ok .gt ∧ zeroWeight.compare t (.var 0) = .ok .gt ∧
      zeroWeight.compare s (.var 0) = .ok .gt ∧ zeroWeight.compare (.var 0) s = .ok .lt := by
  intro t s
  have hst : zeroWeight.compare s t = .ok .gt := by decide +kernel
  have htx : zeroWeight.compare t (.var 0) = .ok .gt := by decide +kernel
  have hsx := (zeroWeight.compare_strictOrder s t (.var 0)).2.2 hst htx
  refine ⟨hst, htx, hsx, ?_⟩
  rw [(zeroWeight.compare_strictOrder s (.var 0) t).1.1, hsx]
  rfl

/-! ## Instances -/

/-- Two terms instantiated one after the other are one replacement of variables. -/
theorem exists_bind_of_instantiate {σ : Substitution} {scope : Nat} {ρ ρ' ρ'' : Renaming}
    {s t s' t' : Term} (hs : s.WellFormed) (ht : t.WellFormed)
    (hs' : instantiate σ scope ρ s = (s', ρ')) (ht' : instantiate σ scope ρ' t = (t', ρ'')) :
    ∃ θ : Nat → Term, s' = s.bind θ ∧ t' = t.bind θ := by
  -- the second instance may add numbers, but it changes none that the first one used
  have hfirst : (instantiate σ scope ρ s).2.order <+: ρ''.order := by
    have hlater := isPrefix_instantiate σ scope ρ' t
    rw [ht'] at hlater
    rwa [hs']
  have hsecond : (instantiate σ scope ρ' t).2.order <+: ρ''.order := by
    rewrite [ht']
    exact List.prefix_rfl
  have hsflat := instantiate_eq_flatten hfirst
  have htflat := instantiate_eq_flatten hsecond
  rw [hs', flatten_apply_lift σ scope ρ'' hs] at hsflat
  rw [ht', flatten_apply_lift σ scope ρ'' ht] at htflat
  exact ⟨σ.replacement scope ρ'', hsflat, htflat⟩

/-- The comparison is stable: terms that compare as greater, smaller or equal compare alike when they are
instantiated one after the other, under any substitution, in any scope and continuing any numbering, as
long as the weights of the instances fit. -/
theorem compare_instantiate (kbo : Kbo) {s t : Term} (hs : s.WellFormed) (ht : t.WellFormed)
    (σ : Substitution) (scope : Nat) (ρ : Renaming) {s' t' : Term} {ρ' ρ'' : Renaming}
    (hs' : instantiate σ scope ρ s = (s', ρ')) (ht' : instantiate σ scope ρ' t = (t', ρ''))
    (hfits : kbo.Fits s' ∧ kbo.Fits t') {c : Comparison} (hc : c ≠ .incomparable)
    (h : kbo.compare s t = .ok c) : kbo.compare s' t' = .ok c := by
  obtain ⟨θ, rfl, rfl⟩ := exists_bind_of_instantiate hs ht hs' ht'
  have htells := (compare_eq_ok_iff.1 h).2
  exact compare_eq_ok_iff.2 ⟨not_compareOverflows hfits.1 hfits.2, htells.bind hc θ⟩

/-- Both variables of scope 1 are bound, one through the other, and scope 2 is not touched. -/
def chained : Substitution :=
  ⟨[(⟨1, 0⟩, .app 1 [.var ⟨1, 1⟩, .var ⟨2, 0⟩]), (⟨1, 1⟩, .const 0)]⟩

/-- `f(x, x) > g(x, b)` by weight, and so are their instances `f(g(a, z), g(a, z))` and `g(g(a, z), b)`,
which are numbered after a variable that was met before. -/
theorem compare_instantiate_chained :
    let kbo : Kbo := { weights := [(.function 0, 3)] }
    let s : Term := .app ⟨0, 2⟩ [.var 0, .var 0]
    let t : Term := .app ⟨1, 2⟩ [.var 0, .const 1]
    let s' : Term := .app ⟨0, 2⟩ [.app ⟨1, 2⟩ [.const 0, .var 1], .app ⟨1, 2⟩ [.const 0, .var 1]]
    let t' : Term := .app ⟨1, 2⟩ [.app ⟨1, 2⟩ [.const 0, .var 1], .const 1]
    instantiate chained 1 ⟨[⟨5, 4⟩]⟩ s = (s', ⟨[⟨5, 4⟩, ⟨2, 0⟩]⟩) ∧
      instantiate chained 1 ⟨[⟨5, 4⟩, ⟨2, 0⟩]⟩ t = (t', ⟨[⟨5, 4⟩, ⟨2, 0⟩]⟩) ∧
      kbo.compare s t = .ok .gt ∧ kbo.compare s' t' = .ok .gt := by
  intro kbo s t s' t'
  have hs' : instantiate chained 1 ⟨[⟨5, 4⟩]⟩ s = (s', ⟨[⟨5, 4⟩, ⟨2, 0⟩]⟩) := by decide +kernel
  have ht' : instantiate chained 1 ⟨[⟨5, 4⟩, ⟨2, 0⟩]⟩ t = (t', ⟨[⟨5, 4⟩, ⟨2, 0⟩]⟩) := by
    decide +kernel
  have hfits : kbo.exactWeight s' < weightBound ∧ kbo.exactWeight t' < weightBound := by
    decide +kernel
  have h : kbo.compare s t = .ok .gt := by decide +kernel
  exact ⟨hs', ht', h,
    kbo.compare_instantiate (by decide) (by decide) chained 1 _ hs' ht' hfits nofun h⟩

end Kbo

end GivenClause
