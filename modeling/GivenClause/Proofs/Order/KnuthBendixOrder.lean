import Mathlib.Data.List.Flatten
import Mathlib.Data.List.Lex
import Mathlib.Data.List.Perm.Subperm
import GivenClause.Order.KnuthBendix
import GivenClause.Proofs.Term.Replacing

/-! # The Knuth–Bendix ordering as a relation

The ordering over unbounded weights is a relation between terms, `Kbo.Greater`. It is a strict order and
it does not change when variables are replaced by terms. The comparison in 64-bit arithmetic decides it
wherever it has a result, and it has a result as long as the weights of both terms fit.

* `Yields` describes computations that may fault;
* `Kbo.Greater` is the relation, with `Kbo.Greater.ne`, `Kbo.Greater.trans` and `Kbo.Greater.bind`;
* `Kbo.greater_outcome` and `Kbo.compare_yields` tie the computations to it. -/

namespace GivenClause

/-! ## Computations that may fault -/

/-- Every result of a computation satisfies `P`, and there is a result when `fits` holds. -/
structure Yields {α : Type} (fits : Prop) (computation : Except Fault α) (P : α → Prop) : Prop where
  /-- Results satisfy `P`. -/
  sound : ∀ a, computation = .ok a → P a
  /-- There is a result. -/
  total : fits → ∃ a, computation = .ok a

namespace Yields

variable {α β : Type} {fits fits' : Prop}

theorem ok {a : α} {P : α → Prop} (h : P a) : Yields fits (.ok a) P := by
  refine ⟨fun b hb => ?_, fun _ => ⟨a, rfl⟩⟩
  cases hb
  exact h

/-- Two steps one after the other. -/
theorem bind {first : Except Fault α} {next : α → Except Fault β} {P : α → Prop} {Q : β → Prop}
    (h : Yields fits first P) (hnext : ∀ a, P a → Yields fits (next a) Q) :
    Yields fits (first >>= next) Q := by
  constructor
  · intro b hb
    obtain ⟨a, ha, hab⟩ := Fault.bind_eq_ok.1 hb
    exact (hnext a (h.sound a ha)).sound b hab
  · intro hfits
    obtain ⟨a, ha⟩ := h.total hfits
    obtain ⟨b, hb⟩ := (hnext a (h.sound a ha)).total hfits
    exact ⟨b, Fault.bind_eq_ok.2 ⟨a, ha, hb⟩⟩

theorem mono {computation : Except Fault α} {P Q : α → Prop} (h : Yields fits computation P)
    (hfits : fits' → fits) (hPQ : ∀ a, P a → Q a) : Yields fits' computation Q :=
  ⟨fun a ha => hPQ a (h.sound a ha), fun hf => h.total (hfits hf)⟩

end Yields

/-- The outcome of a comparison agrees with what holds: the values are the same, the first is greater,
the second is greater, or none of it. -/
inductive Comparison.Tells (same greater less : Prop) : Comparison → Prop where
  /-- The values are the same. -/
  | eq (h : same) : Tells same greater less .eq
  /-- The first is greater. -/
  | gt (h : greater) : Tells same greater less .gt
  /-- The second is greater. -/
  | lt (h : less) : Tells same greater less .lt
  /-- Nothing of it holds. -/
  | incomparable (hsame : ¬ same) (hgreater : ¬ greater) (hless : ¬ less) :
    Tells same greater less .incomparable

namespace Comparison.Tells

variable {same greater less : Prop} {c : Comparison}

@[simp] theorem eq_outcome : Tells same greater less .eq ↔ same :=
  ⟨fun h => by cases h; assumption, .eq⟩

@[simp] theorem gt_outcome : Tells same greater less .gt ↔ greater :=
  ⟨fun h => by cases h; assumption, .gt⟩

@[simp] theorem lt_outcome : Tells same greater less .lt ↔ less :=
  ⟨fun h => by cases h; assumption, .lt⟩

/-- With the values exchanged the outcome is flipped. -/
theorem flip {same' : Prop} (h : Tells same greater less c) (hsame : same ↔ same') :
    Tells same' less greater c.flip := by
  cases h with
  | eq h => exact .eq (hsame.1 h)
  | gt h => exact .lt h
  | lt h => exact .gt h
  | incomparable hne hgreater hless => exact .incomparable (mt hsame.2 hne) hless hgreater

/-- The values are the same exactly when the outcome says so. -/
theorem eq_eq_iff (h : Tells same greater less c) (hgreater : greater → ¬ same)
    (hless : less → ¬ same) : c = .eq ↔ same := by
  constructor
  · rintro rfl
    exact eq_outcome.1 h
  · intro hsame
    cases h with
    | eq => rfl
    | gt h => exact absurd hsame (hgreater h)
    | lt h => exact absurd hsame (hless h)
    | incomparable h _ _ => exact absurd hsame h

/-- The first value is greater exactly when the outcome says so. -/
theorem eq_gt_iff (h : Tells same greater less c) (hsame : greater → ¬ same)
    (hless : greater → ¬ less) : c = .gt ↔ greater := by
  constructor
  · rintro rfl
    exact gt_outcome.1 h
  · intro hgreater
    cases h with
    | eq h => exact absurd h (hsame hgreater)
    | gt => rfl
    | lt h => exact absurd h (hless hgreater)
    | incomparable _ h _ => exact absurd hgreater h

/-- The second value is greater exactly when the outcome says so. -/
theorem eq_lt_iff (h : Tells same greater less c) (hsame : less → ¬ same)
    (hgreater : less → ¬ greater) : c = .lt ↔ less := by
  constructor
  · rintro rfl
    exact lt_outcome.1 h
  · intro hless
    cases h with
    | eq h => exact absurd h (hsame hless)
    | gt h => exact absurd h (hgreater hless)
    | lt => rfl
    | incomparable _ _ h => exact absurd hless h

/-- There is one outcome only where the values are related in one way only. -/
theorem unique {c' : Comparison} (h : Tells same greater less c) (h' : Tells same greater less c')
    (hgreater : greater → ¬ same) (hless : less → ¬ same) (hasymm : greater → ¬ less) : c = c' := by
  cases h' with
  | eq h' => exact (h.eq_eq_iff hgreater hless).2 h'
  | gt h' => exact (h.eq_gt_iff hgreater hasymm).2 h'
  | lt h' => exact (h.eq_lt_iff hless fun hl hg => hasymm hg hl).2 h'
  | incomparable hne hnotGreater hnotLess =>
    cases h with
    | eq h => exact absurd h hne
    | gt h => exact absurd h hnotGreater
    | lt h => exact absurd h hnotLess
    | incomparable => rfl

end Comparison.Tells

namespace Kbo

/-! ## Weights -/

/-- A symbol weighs at least one. -/
theorem symbolWeight_pos (kbo : Kbo) (symbol : Symbol) : 0 < kbo.symbolWeight symbol := by
  rw [symbolWeight]
  split <;> omega

/-- A term weighs at least one. -/
theorem exactWeight_pos (kbo : Kbo) (t : Term) : 0 < kbo.exactWeight t := by
  cases t with
  | var x => exact Nat.one_pos
  | const c => exact kbo.symbolWeight_pos _
  | app f args => exact Nat.add_pos_left (kbo.symbolWeight_pos _) _

/-- An argument weighs at most as much as the whole list. -/
theorem exactWeight_le_exactWeightList (kbo : Kbo) {t : Term} {ts : List Term} (h : t ∈ ts) :
    kbo.exactWeight t ≤ kbo.exactWeightList ts := by
  induction ts with
  | nil => cases h
  | cons u us ih =>
    rw [exactWeightList]
    rcases List.mem_cons.1 h with rfl | h
    · omega
    · have := ih h
      omega

/-- An argument weighs less than the application. -/
theorem exactWeight_lt_of_mem (kbo : Kbo) (f : FunctionSymbol) {t : Term} {args : List Term}
    (h : t ∈ args) : kbo.exactWeight t < kbo.exactWeight (.app f args) := by
  have hle := kbo.exactWeight_le_exactWeightList h
  have hpos := kbo.symbolWeight_pos (.function f.id)
  rw [exactWeight]
  omega

theorem addWeights_eq_ok {v w sum : Nat} :
    addWeights v w = .ok sum ↔ v + w < weightBound ∧ v + w = sum := by
  rw [addWeights]
  split <;> simp [*]

mutual

/-- Weights are summed up as if in one step. -/
theorem weightAfter_eq (kbo : Kbo) (sum : Nat) :
    (t : Term) → kbo.weightAfter sum t = addWeights sum (kbo.exactWeight t)
  | .var _ => rfl
  | .const _ => rfl
  | .app f args => by
    -- sums only grow, so an overflow on the way is an overflow at the end
    rw [weightAfter, exactWeight]
    by_cases h : sum + kbo.symbolWeight (.function f.id) < weightBound
    · rw [addWeights_eq_ok.2 ⟨h, rfl⟩]
      show kbo.weightListAfter _ args = _
      rw [weightListAfter_eq kbo h args, addWeights, addWeights, Nat.add_assoc]
    · rw [addWeights, if_neg h, addWeights, if_neg (by omega)]
      rfl

theorem weightListAfter_eq (kbo : Kbo) {sum : Nat} (h : sum < weightBound) :
    (ts : List Term) → kbo.weightListAfter sum ts = addWeights sum (kbo.exactWeightList ts)
  | [] => by
    rw [weightListAfter, exactWeightList, addWeights, Nat.add_zero, if_pos h]
  | t :: ts => by
    rw [weightListAfter, weightAfter_eq kbo sum t, exactWeightList]
    by_cases ht : sum + kbo.exactWeight t < weightBound
    · rw [addWeights_eq_ok.2 ⟨ht, rfl⟩]
      show kbo.weightListAfter _ ts = _
      rw [weightListAfter_eq kbo ht ts, addWeights, addWeights, Nat.add_assoc]
    · rw [addWeights, if_neg ht, addWeights, if_neg (by omega)]
      rfl

end

/-- The 64-bit weight is the exact one where that fits. -/
theorem weight_eq_ok (kbo : Kbo) {t : Term} (h : kbo.exactWeight t < weightBound) :
    kbo.weight t = .ok (kbo.exactWeight t) := by
  rw [weight, weightAfter_eq, addWeights_eq_ok]
  omega

/-- A weight that does not fit is a fault. -/
theorem weight_eq_error (kbo : Kbo) {t : Term} (h : weightBound ≤ kbo.exactWeight t) :
    kbo.weight t = .error .weightOverflow := by
  rw [weight, weightAfter_eq, addWeights, if_neg (by omega)]

/-! ## The relation -/

/-- Every variable occurs in `s` at least as often as in `t`. -/
def Covers (s t : Term) : Prop :=
  t.varOccurrences.Subperm s.varOccurrences

theorem Covers.trans {s t u : Term} (hst : Covers s t) (htu : Covers t u) : Covers s u :=
  List.Subperm.trans htu hst

/-- The variable condition is decided by counting. -/
theorem coversVariables_iff {s t : Term} : coversVariables s t = true ↔ Covers s t := by
  rw [Covers, List.subperm_ext_iff, coversVariables]
  split
  · next h => simp [h]
  · next x xs h => simp [h]

/-- The Knuth–Bendix ordering over unbounded weights. -/
inductive Greater (kbo : Kbo) : Term → Term → Prop where
  /-- The heavier term is greater. -/
  | weight {s t : Term} (covers : Covers s t)
    (heavier : kbo.exactWeight t < kbo.exactWeight s) : Greater kbo s t
  /-- Of equally heavy terms the one with the higher head is greater. -/
  | head {s t : Term} (covers : Covers s t) (tie : kbo.exactWeight s = kbo.exactWeight t)
    (higher : kbo.headKey t < kbo.headKey s) : Greater kbo s t
  /-- Of equally heavy applications of one function the one whose first differing argument is greater
  is greater. -/
  | args {f : FunctionSymbol} {front ss ts : List Term} {s t : Term}
    (covers : Covers (.app f (front ++ s :: ss)) (.app f (front ++ t :: ts)))
    (tie : kbo.exactWeight (.app f (front ++ s :: ss)) =
      kbo.exactWeight (.app f (front ++ t :: ts)))
    (arg : Greater kbo s t) : Greater kbo (.app f (front ++ s :: ss)) (.app f (front ++ t :: ts))

/-- The first arguments that differ are greater on the left. -/
def ArgsGreater (kbo : Kbo) (ss ts : List Term) : Prop :=
  ∃ front s t ss' ts', ss = front ++ s :: ss' ∧ ts = front ++ t :: ts' ∧ kbo.Greater s t

namespace Greater

variable {kbo : Kbo} {s t u : Term}

theorem ofArgs {f : FunctionSymbol} {ss ts : List Term} (covers : Covers (.app f ss) (.app f ts))
    (tie : kbo.exactWeight (.app f ss) = kbo.exactWeight (.app f ts))
    (h : kbo.ArgsGreater ss ts) : kbo.Greater (.app f ss) (.app f ts) := by
  obtain ⟨front, s, t, ss', ts', rfl, rfl, harg⟩ := h
  exact .args covers tie harg

theorem covers (h : kbo.Greater s t) : Covers s t := by
  cases h with
  | weight hcovers => exact hcovers
  | head hcovers => exact hcovers
  | args hcovers => exact hcovers

theorem exactWeight_le (h : kbo.Greater s t) : kbo.exactWeight t ≤ kbo.exactWeight s := by
  cases h with
  | weight _ heavier => exact heavier.le
  | head _ tie => exact tie.ge
  | args _ tie => exact tie.ge

/-- No term is greater than itself. -/
theorem ne (h : kbo.Greater s t) : s ≠ t := by
  induction h with
  | weight _ heavier =>
    rintro rfl
    exact Nat.lt_irrefl _ heavier
  | head _ _ higher =>
    rintro rfl
    exact lt_irrefl _ higher
  | args _ _ _ ih =>
    intro heq
    rw [TermOver.app.injEq, List.append_cancel_left_eq, List.cons.injEq] at heq
    exact ih heq.2.1

/-- No variable is greater than a term. -/
theorem not_var {x : Nat} : ¬ kbo.Greater (.var x) t := by
  intro h
  cases h with
  | weight _ heavier =>
    have := kbo.exactWeight_pos t
    rw [exactWeight] at heavier
    omega
  | head _ _ higher => exact absurd higher (List.not_lt_nil _)

/-- How an application can be greater than a term. -/
theorem app_cases {f : FunctionSymbol} {ss : List Term} (h : kbo.Greater (.app f ss) t) :
    kbo.exactWeight t < kbo.exactWeight (.app f ss) ∨
    kbo.exactWeight (.app f ss) = kbo.exactWeight t ∧
      (kbo.headKey t < kbo.headKey (.app f ss) ∨
        ∃ ts, t = .app f ts ∧ kbo.ArgsGreater ss ts) := by
  generalize happ : TermOver.app f ss = s at h
  cases h with
  | weight _ heavier => exact Or.inl heavier
  | head _ tie higher => exact Or.inr ⟨tie, Or.inl higher⟩
  | args _ tie arg =>
    cases happ
    exact Or.inr ⟨tie, Or.inr ⟨_, rfl, _, _, _, _, _, rfl, rfl, arg⟩⟩

/-- Argument lists with a greater first difference compose when the first members compared do. -/
theorem argsGreater_trans {front ss ts us : List Term} (harg : kbo.Greater s t)
    (ih : ∀ u, kbo.Greater t u → kbo.Greater s u)
    (h : kbo.ArgsGreater (front ++ t :: ts) us) : kbo.ArgsGreater (front ++ s :: ss) us := by
  obtain ⟨front', t', u', ts', us', hts, rfl, harg'⟩ := h
  -- the two places where the lists differ: the same, or one before the other
  obtain ⟨between, rfl, hrest⟩ | ⟨between, rfl, hrest⟩ := List.append_eq_append_iff.1 hts
  · cases between with
    | nil =>
      rw [List.nil_append, List.cons.injEq] at hrest
      obtain ⟨rfl, rfl⟩ := hrest
      exact ⟨front, s, u', ss, us', rfl, by rw [List.append_nil], ih u' harg'⟩
    | cons v between =>
      rw [List.cons_append, List.cons.injEq] at hrest
      obtain ⟨rfl, rfl⟩ := hrest
      exact ⟨front, s, t, ss, between ++ u' :: us', rfl, by simp, harg⟩
  · cases between with
    | nil =>
      rw [List.nil_append, List.cons.injEq] at hrest
      obtain ⟨rfl, rfl⟩ := hrest
      exact ⟨front', s, u', ss, us', by rw [List.append_nil], rfl, ih u' harg'⟩
    | cons v between =>
      rw [List.cons_append, List.cons.injEq] at hrest
      obtain ⟨rfl, rfl⟩ := hrest
      exact ⟨front', t', u', between ++ s :: ss, us', by simp, rfl, harg'⟩

/-- The ordering is transitive. -/
theorem trans (hst : kbo.Greater s t) (htu : kbo.Greater t u) : kbo.Greater s u := by
  have hcovers := hst.covers.trans htu.covers
  -- the first reason that is not a tie decides, weights before heads before arguments
  induction hst generalizing u with
  | weight _ heavier => exact .weight hcovers (htu.exactWeight_le.trans_lt heavier)
  | head _ tie higher =>
    cases htu with
    | weight _ heavier => exact .weight hcovers (by omega)
    | head _ tie' higher' => exact .head hcovers (by omega) (higher'.trans higher)
    | args _ tie' _ => exact .head hcovers (by omega) higher
  | args _ tie arg ih =>
    obtain heavier | ⟨tie', higher | ⟨us, rfl, hargs⟩⟩ := htu.app_cases
    · exact .weight hcovers (by omega)
    · exact .head hcovers (by omega) higher
    · exact .ofArgs hcovers (by omega)
        (argsGreater_trans arg (fun u hu => ih hu (arg.covers.trans hu.covers)) hargs)

/-- The ordering is asymmetric. -/
theorem asymm (hst : kbo.Greater s t) : ¬ kbo.Greater t s :=
  fun hts => (hst.trans hts).ne rfl

end Greater

/-! ## Replacing variables -/

/-- What replacing the listed variables adds to a weight. -/
def excess (kbo : Kbo) (θ : Nat → Term) : List Nat → Nat
  | [] => 0
  | x :: xs => (kbo.exactWeight (θ x) - 1) + kbo.excess θ xs

theorem excess_append (kbo : Kbo) (θ : Nat → Term) (xs ys : List Nat) :
    kbo.excess θ (xs ++ ys) = kbo.excess θ xs + kbo.excess θ ys := by
  induction xs with
  | nil => simp [excess]
  | cons x xs ih => rw [List.cons_append, excess, excess, ih, Nat.add_assoc]

theorem excess_perm (kbo : Kbo) (θ : Nat → Term) {xs ys : List Nat} (h : xs.Perm ys) :
    kbo.excess θ xs = kbo.excess θ ys := by
  induction h with
  | nil => rfl
  | cons x _ ih => rw [excess, excess, ih]
  | swap x y xs =>
    simp only [excess]
    omega
  | trans _ _ ih ih' => exact ih.trans ih'

/-- More variables to replace add more. -/
theorem excess_le_of_subperm (kbo : Kbo) (θ : Nat → Term) {xs ys : List Nat} (h : xs.Subperm ys) :
    kbo.excess θ xs ≤ kbo.excess θ ys := by
  obtain ⟨zs, hperm, hsublist⟩ := h
  -- rearranged, the shorter list is a sublist of the longer one
  rw [← kbo.excess_perm θ hperm]
  clear hperm
  induction hsublist with
  | slnil => exact Nat.le_refl _
  | cons x _ ih =>
    rw [excess]
    omega
  | cons_cons x _ ih =>
    rw [excess, excess]
    omega

theorem exactWeightList_bind (kbo : Kbo) (θ : Nat → Term) {ts : List Term}
    (h : ∀ t ∈ ts, kbo.exactWeight (t.bind θ) = kbo.exactWeight t + kbo.excess θ t.varOccurrences) :
    kbo.exactWeightList (ts.map (TermOver.bind θ)) =
      kbo.exactWeightList ts + kbo.excess θ (ts.flatMap TermOver.varOccurrences) := by
  induction ts with
  | nil => rfl
  | cons t ts ih =>
    have ht := h t List.mem_cons_self
    have hts := ih fun u hu => h u (List.mem_cons_of_mem t hu)
    rw [List.map_cons, exactWeightList, exactWeightList, List.flatMap_cons, excess_append]
    omega

/-- The weight of an instance. -/
theorem exactWeight_bind (kbo : Kbo) (θ : Nat → Term) (t : Term) :
    kbo.exactWeight (t.bind θ) = kbo.exactWeight t + kbo.excess θ t.varOccurrences := by
  induction t using TermOver.induction with
  | var x =>
    have := kbo.exactWeight_pos (θ x)
    simp only [TermOver.bind_var, TermOver.varOccurrences_var, excess, exactWeight]
    omega
  | const c => rfl
  | app f args ih =>
    rw [TermOver.bind_app, exactWeight, exactWeight, kbo.exactWeightList_bind θ ih,
      TermOver.varOccurrences_app, Nat.add_assoc]

theorem Covers.bind {s t : Term} (h : Covers s t) (θ : Nat → Term) :
    Covers (s.bind θ) (t.bind θ) := by
  obtain ⟨xs, hperm, hsublist⟩ := h
  rw [Covers, TermOver.varOccurrences_bind, TermOver.varOccurrences_bind]
  exact ⟨xs.flatMap _, hperm.flatMap_right _, hsublist.flatMap _⟩

/-- Covered terms stay apart at least as far in weight. -/
theorem Covers.exactWeight_bind_le {s t : Term} (h : Covers s t) (kbo : Kbo) (θ : Nat → Term) :
    kbo.exactWeight (t.bind θ) + kbo.exactWeight s ≤ kbo.exactWeight (s.bind θ) + kbo.exactWeight t := by
  have := kbo.excess_le_of_subperm θ h
  rw [exactWeight_bind, exactWeight_bind]
  omega

/-- The head of a term that is no variable stays. -/
theorem headKey_bind (kbo : Kbo) (θ : Nat → Term) {t : Term} (h : t.isVar = false) :
    kbo.headKey (t.bind θ) = kbo.headKey t := by
  cases t with
  | var x => cases h
  | const c => rfl
  | app f args => rfl

/-- Applications with equal heads apply one function, since the stored arity is part of the head. -/
theorem eq_of_headKey_app_eq {kbo : Kbo} {f g : FunctionSymbol} {ss ts : List Term}
    (h : kbo.headKey (.app f ss) = kbo.headKey (.app g ts)) : f = g := by
  obtain ⟨fid, farity⟩ := f
  obtain ⟨gid, garity⟩ := g
  simp only [headKey, List.cons.injEq] at h
  obtain ⟨-, -, harity, rfl, -⟩ := h
  rw [UInt8.toNat_inj.1 harity]

/-- Different terms with equal heads, no variables, are applications of one function. -/
theorem exists_app_of_headKey_eq {kbo : Kbo} {s t : Term} (hs : s.isVar = false)
    (h : kbo.headKey s = kbo.headKey t) (hne : s ≠ t) :
    ∃ f ss ts, s = .app f ss ∧ t = .app f ts := by
  cases s with
  | var x => cases hs
  | const c =>
    cases t with
    | var y => simp [headKey] at h
    | const d =>
      simp only [headKey, List.cons.injEq] at h
      obtain ⟨-, -, -, rfl, -⟩ := h
      exact absurd rfl hne
    | app g ts => simp [headKey] at h
  | app f ss =>
    cases t with
    | var y => simp [headKey] at h
    | const d => simp [headKey] at h
    | app g ts =>
      cases eq_of_headKey_app_eq h
      exact ⟨f, ss, ts, rfl, rfl⟩

/-- A term other than a variable that has a variable weighs more than it. -/
theorem Covers.one_lt {s : Term} {x : Nat} (h : Covers s (.var x)) (hs : s.isVar = false)
    (kbo : Kbo) : 1 < kbo.exactWeight s := by
  have hx : x ∈ s.varOccurrences := h.subset List.mem_cons_self
  cases s with
  | var y => cases hs
  | const c => cases hx
  | app f args =>
    obtain ⟨a, ha, -⟩ := TermOver.mem_varOccurrences_app.1 hx
    have := kbo.exactWeight_lt_of_mem f ha
    have := kbo.exactWeight_pos a
    omega

/-- Neither term is a variable where heads decide. -/
theorem isVar_eq_false_of_headKey_lt {kbo : Kbo} {s t : Term} (covers : Covers s t)
    (tie : kbo.exactWeight s = kbo.exactWeight t) (higher : kbo.headKey t < kbo.headKey s) :
    s.isVar = false ∧ t.isVar = false := by
  have hs : s.isVar = false := by
    cases s with
    | var x => exact absurd higher (List.not_lt_nil _)
    | const c => rfl
    | app f args => rfl
  refine ⟨hs, ?_⟩
  cases t with
  | var x =>
    have := covers.one_lt hs kbo
    rw [tie, exactWeight] at this
    omega
  | const c => rfl
  | app f args => rfl

/-- The ordering is stable: instances of a greater term are greater than those of the smaller one. -/
theorem Greater.bind {kbo : Kbo} {s t : Term} (h : kbo.Greater s t) (θ : Nat → Term) :
    kbo.Greater (s.bind θ) (t.bind θ) := by
  -- an instance may only move from a tie to a greater weight on the left, never to a smaller one
  induction h with
  | weight covers heavier =>
    have := covers.exactWeight_bind_le kbo θ
    exact .weight (covers.bind θ) (by omega)
  | @head s t covers tie higher =>
    have hle := covers.exactWeight_bind_le kbo θ
    by_cases heavier : kbo.exactWeight (t.bind θ) < kbo.exactWeight (s.bind θ)
    · exact .weight (covers.bind θ) heavier
    · obtain ⟨hs, ht⟩ := isVar_eq_false_of_headKey_lt covers tie higher
      refine .head (covers.bind θ) (by omega) ?_
      rwa [headKey_bind kbo θ hs, headKey_bind kbo θ ht]
  | @args f front ss ts s t covers tie _ ih =>
    have hle := covers.exactWeight_bind_le kbo θ
    by_cases heavier : kbo.exactWeight ((TermOver.app f (front ++ t :: ts)).bind θ) <
        kbo.exactWeight ((TermOver.app f (front ++ s :: ss)).bind θ)
    · exact .weight (covers.bind θ) heavier
    · have hcovers := covers.bind θ
      have htie : kbo.exactWeight ((TermOver.app f (front ++ s :: ss)).bind θ) =
          kbo.exactWeight ((TermOver.app f (front ++ t :: ts)).bind θ) := by omega
      simp only [TermOver.bind_app, List.map_append, List.map_cons] at hcovers htie ⊢
      exact .args hcovers htie ih

/-! ## What the comparison computes -/

/-- Where weights differ they decide. -/
theorem greater_iff_of_exactWeight_ne {kbo : Kbo} {s t : Term} (covers : Covers s t)
    (hne : kbo.exactWeight s ≠ kbo.exactWeight t) :
    kbo.Greater s t ↔ kbo.exactWeight t < kbo.exactWeight s :=
  ⟨fun h => lt_of_le_of_ne h.exactWeight_le hne.symm, .weight covers⟩

/-- Where weights agree and heads differ, heads decide. -/
theorem greater_iff_of_headKey_ne {kbo : Kbo} {s t : Term} (covers : Covers s t)
    (tie : kbo.exactWeight s = kbo.exactWeight t) (hne : kbo.headKey s ≠ kbo.headKey t) :
    kbo.Greater s t ↔ kbo.headKey t < kbo.headKey s := by
  refine ⟨fun h => ?_, .head covers tie⟩
  cases h with
  | weight _ heavier => omega
  | head _ _ higher => exact higher
  | args => exact absurd rfl hne

/-- Where weights and heads agree, arguments decide. -/
theorem greater_app_iff {kbo : Kbo} {f : FunctionSymbol} {ss ts : List Term}
    (covers : Covers (.app f ss) (.app f ts))
    (tie : kbo.exactWeight (.app f ss) = kbo.exactWeight (.app f ts)) :
    kbo.Greater (.app f ss) (.app f ts) ↔ kbo.ArgsGreater ss ts := by
  refine ⟨fun h => ?_, .ofArgs covers tie⟩
  obtain heavier | ⟨-, higher | ⟨us, heq, hargs⟩⟩ := h.app_cases
  · omega
  · exact absurd higher (lt_irrefl _)
  · cases heq
    exact hargs

theorem argsGreater_cons_self {kbo : Kbo} {s : Term} {ss ts : List Term} :
    kbo.ArgsGreater (s :: ss) (s :: ts) ↔ kbo.ArgsGreater ss ts := by
  constructor
  · rintro ⟨front, u, v, ss', ts', hss, hts, harg⟩
    cases front with
    | nil =>
      cases hss
      cases hts
      exact absurd rfl harg.ne
    | cons w front =>
      cases hss
      cases hts
      exact ⟨front, u, v, ss', ts', rfl, rfl, harg⟩
  · rintro ⟨front, u, v, ss', ts', rfl, rfl, harg⟩
    exact ⟨s :: front, u, v, ss', ts', rfl, rfl, harg⟩

theorem argsGreater_cons_of_ne {kbo : Kbo} {s t : Term} {ss ts : List Term} (hne : s ≠ t) :
    kbo.ArgsGreater (s :: ss) (t :: ts) ↔ kbo.Greater s t := by
  constructor
  · rintro ⟨front, u, v, ss', ts', hss, hts, harg⟩
    cases front with
    | nil =>
      cases hss
      cases hts
      exact harg
    | cons w front =>
      cases hss
      cases hts
      exact absurd rfl hne
  · intro h
    exact ⟨[], s, t, ss, ts, rfl, rfl, h⟩

theorem not_argsGreater_nil_left {kbo : Kbo} {ts : List Term} : ¬ kbo.ArgsGreater [] ts := by
  rintro ⟨front, u, v, ss', ts', hss, -, -⟩
  exact absurd hss.symm (by simp)

theorem not_argsGreater_nil_right {kbo : Kbo} {ss : List Term} : ¬ kbo.ArgsGreater ss [] := by
  rintro ⟨front, u, v, ss', ts', -, hts, -⟩
  exact absurd hts.symm (by simp)

/-- The comparison of two terms looks at a weight that does not fit. -/
structure Overflows (kbo : Kbo) (s t : Term) : Prop where
  /-- Variables are not weighed. -/
  left : s.isVar = false
  /-- Variables are not weighed. -/
  right : t.isVar = false
  /-- Weights are looked at after the variables. -/
  covers : Covers s t
  /-- One of the weights does not fit. -/
  heavy : weightBound ≤ kbo.exactWeight s ∨ weightBound ≤ kbo.exactWeight t

/-- What deciding `s > t` gives: a fault where a weight does not fit, otherwise the exact answer. -/
inductive GreaterOutcome (kbo : Kbo) (s t : Term) : Except Fault Bool → Prop where
  /-- A weight does not fit. -/
  | overflow (h : kbo.Overflows s t) : GreaterOutcome kbo s t (.error .weightOverflow)
  /-- The answer is that of the relation. -/
  | decided (fits : ¬ kbo.Overflows s t) {answer : Bool} (h : answer = true ↔ kbo.Greater s t) :
    GreaterOutcome kbo s t (.ok answer)

/-- The comparison by weights and heads, given what breaks a tie. -/
theorem greaterByWeight_outcome {kbo : Kbo} {s t : Term} {tieBreak : Unit → Except Fault Bool}
    (hs : s.isVar = false) (ht : t.isVar = false)
    (htie : Covers s t → kbo.exactWeight s = kbo.exactWeight t →
      kbo.exactWeight s < weightBound → kbo.headKey s = kbo.headKey t →
      ∃ answer, tieBreak () = .ok answer ∧ (answer = true ↔ kbo.Greater s t)) :
    GreaterOutcome kbo s t (kbo.greaterByWeight s t tieBreak) := by
  rw [greaterByWeight]
  split
  · next hcovers =>
    rw [coversVariables_iff] at hcovers
    by_cases hws : kbo.exactWeight s < weightBound
    · by_cases hwt : kbo.exactWeight t < weightBound
      · have hfits : ¬ kbo.Overflows s t := fun h => by
          have := h.heavy
          omega
        rw [weight_eq_ok kbo hws, weight_eq_ok kbo hwt]
        simp only [bind, Except.bind]
        split
        · next hne =>
          exact .decided hfits (by rw [decide_eq_true_iff, greater_iff_of_exactWeight_ne hcovers hne])
        · next heq =>
          rw [ne_eq, not_not] at heq
          split
          · next hne =>
            exact .decided hfits
              (by rw [decide_eq_true_iff, greater_iff_of_headKey_ne hcovers heq hne])
          · next hhead =>
            rw [ne_eq, not_not] at hhead
            obtain ⟨answer, hanswer, hiff⟩ := htie hcovers heq hws hhead
            rw [hanswer]
            exact .decided hfits hiff
      · rw [weight_eq_ok kbo hws, weight_eq_error kbo (by omega)]
        exact .overflow ⟨hs, ht, hcovers, Or.inr (by omega)⟩
    · rw [weight_eq_error kbo (by omega)]
      exact .overflow ⟨hs, ht, hcovers, Or.inl (by omega)⟩
  · next hcovers =>
    rw [coversVariables_iff] at hcovers
    exact .decided (fun h => hcovers h.covers)
      (iff_of_false Bool.false_ne_true fun h => hcovers h.covers)

/-- Arguments are compared without looking at a weight that does not fit. -/
theorem greaterArgs_outcome {kbo : Kbo} {ss ts : List Term}
    (ih : ∀ s ∈ ss, ∀ t, GreaterOutcome kbo s t (kbo.greater s t))
    (hss : ∀ s ∈ ss, kbo.exactWeight s < weightBound)
    (hts : ∀ t ∈ ts, kbo.exactWeight t < weightBound) :
    ∃ answer, kbo.greaterArgs ss ts = .ok answer ∧
      (answer = true ↔ kbo.ArgsGreater ss ts) := by
  induction ss generalizing ts with
  | nil =>
    refine ⟨false, by rw [greaterArgs]; nofun, ?_⟩
    exact iff_of_false Bool.false_ne_true not_argsGreater_nil_left
  | cons s ss ihs =>
    cases ts with
    | nil =>
      refine ⟨false, by rw [greaterArgs]; nofun, ?_⟩
      exact iff_of_false Bool.false_ne_true not_argsGreater_nil_right
    | cons t ts =>
      rw [greaterArgs]
      by_cases heq : s = t
      · subst heq
        rw [if_pos rfl]
        simp only [argsGreater_cons_self]
        exact ihs (fun u hu => ih u (List.mem_cons_of_mem s hu))
          (fun u hu => hss u (List.mem_cons_of_mem s hu))
          (fun u hu => hts u (List.mem_cons_of_mem s hu))
      · rw [if_neg heq]
        simp only [argsGreater_cons_of_ne heq]
        have hs := hss s List.mem_cons_self
        have ht := hts t List.mem_cons_self
        generalize hresult : kbo.greater s t = result
        cases hresult ▸ ih s List.mem_cons_self t with
        | overflow h =>
          -- the arguments weigh less than their applications, whose weights fit
          have := h.heavy
          omega
        | decided _ h => exact ⟨_, rfl, h⟩

/-- The comparison in 64-bit arithmetic decides the relation wherever it has a result, and it has one
unless it looks at a weight that does not fit. -/
theorem greater_outcome (kbo : Kbo) (s t : Term) :
    GreaterOutcome kbo s t (kbo.greater s t) := by
  induction s using TermOver.induction generalizing t with
  | var x =>
    rw [greater]
    exact .decided (fun h => by cases h.left) (iff_of_false Bool.false_ne_true Greater.not_var)
  | const c =>
    cases t with
    | var y =>
      rw [greater]
      refine .decided (fun h => by cases h.right) (iff_of_false Bool.false_ne_true fun h => ?_)
      exact List.not_mem_nil (h.covers.subset List.mem_cons_self)
    | const d =>
      rw [greater]
      refine greaterByWeight_outcome rfl rfl fun _ _ _ hhead => ⟨false, rfl, ?_⟩
      rw [headKey, headKey] at hhead
      simp only [List.cons.injEq] at hhead
      obtain ⟨-, -, -, rfl, -⟩ := hhead
      exact iff_of_false Bool.false_ne_true fun h => h.ne rfl
    | app g ts =>
      rw [greater]
      exact greaterByWeight_outcome rfl rfl fun _ _ _ hhead => by
        simp [headKey] at hhead
  | app f ss ih =>
    cases t with
    | var y =>
      rw [greater]
      refine .decided (fun h => by cases h.right) ?_
      rw [decide_eq_true_iff]
      constructor
      · intro hy
        have hcovers : Covers (.app f ss) (.var y) := List.singleton_subperm_iff.2 hy
        exact .weight hcovers (hcovers.one_lt rfl kbo)
      · exact fun h => h.covers.subset List.mem_cons_self
    | const d =>
      rw [greater]
      exact greaterByWeight_outcome rfl rfl fun _ _ _ hhead => by
        simp [headKey] at hhead
    | app g ts =>
      rw [greater]
      refine greaterByWeight_outcome rfl rfl fun hcovers htie hlt hhead => ?_
      cases eq_of_headKey_app_eq hhead
      rw [greater_app_iff hcovers htie]
      exact greaterArgs_outcome ih (fun s hs => (kbo.exactWeight_lt_of_mem f hs).trans hlt)
        (fun t ht => (kbo.exactWeight_lt_of_mem f ht).trans (htie ▸ hlt))

/-- The weight of a term fits in 64 bits. -/
def Fits (kbo : Kbo) (t : Term) : Prop :=
  kbo.exactWeight t < weightBound

theorem greater_yields (kbo : Kbo) (s t : Term) :
    Yields (kbo.Fits s ∧ kbo.Fits t) (kbo.greater s t)
      fun answer => answer = true ↔ kbo.Greater s t := by
  generalize hresult : kbo.greater s t = result
  cases hresult ▸ kbo.greater_outcome s t with
  | overflow h =>
    refine ⟨nofun, fun hfits => ?_⟩
    rw [Fits, Fits] at hfits
    have := h.heavy
    omega
  | decided _ h => exact .ok h

/-- Terms compare as the relation says. -/
theorem compare_yields (kbo : Kbo) (s t : Term) :
    Yields (kbo.Fits s ∧ kbo.Fits t) (kbo.compare s t)
      (Comparison.Tells (s = t) (kbo.Greater s t) (kbo.Greater t s)) := by
  rw [compare]
  split
  · next heq => exact .ok (.eq heq)
  · next hne =>
    refine (kbo.greater_yields s t).bind fun above habove => ?_
    split
    · next h => exact .ok (.gt (habove.1 h))
    · next h =>
      refine ((kbo.greater_yields t s).mono And.symm fun _ => id).bind fun below hbelow => ?_
      split
      · next h' => exact .ok (.lt (hbelow.1 h'))
      · next h' => exact .ok (.incomparable hne (mt habove.2 h) (mt hbelow.2 h'))

end Kbo

end GivenClause
