import GivenClause.Proofs.Unify.Disagreements

/-! # Unification ends

Unification as a plain recursion: both terms are followed to the end of their bindings, and then they are
equal, or one is a variable, or both are applications whose arguments are unified in turn, each pair under
the bindings made before it. The terms grow along the way, so it is not the terms that make the recursion
end. Either a binding was made, and fewer variables remain, or none was made, and the arguments are smaller.

* `UnifyRun` is a run of this recursion, without any bound on its length;
* `unifyRun_iff`: under an acyclic substitution it ends on any two terms, with what `unifyFrom` computes;
* `unification_terminates` collects what a run leaves, whether it succeeds or fails. -/

namespace GivenClause

open Substitution

/-! ## Runs -/

/-- What the attempt to bind a variable leaves, given whether the variable was found in the term. -/
def UnifyAttempt.ofBinding (σ : Substitution) (v : ScopedVar) (t : ScopedTerm) :
    (found : Bool) → UnifyAttempt
  | true => ⟨σ, some .occursCheck⟩
  | false => ⟨σ.insert v t, none⟩

mutual

/-- A run that unifies two terms. -/
inductive UnifyRun : Substitution → ScopedTerm → ScopedTerm → UnifyAttempt → Prop where
  /-- Both terms are followed to the end of their bindings and compared. -/
  | followed {σ : Substitution} {s t s' t' : ScopedTerm} {attempt : UnifyAttempt}
      (hs : σ.Applies s s') (ht : σ.Applies t t') (hrun : CompareRun σ s' t' attempt) :
      UnifyRun σ s t attempt

/-- A run that makes two terms equal after their bindings were followed. -/
inductive CompareRun : Substitution → ScopedTerm → ScopedTerm → UnifyAttempt → Prop where
  /-- The terms are equal. -/
  | same (σ : Substitution) (t : ScopedTerm) : CompareRun σ t t ⟨σ, none⟩
  /-- A variable on the left is bound, unless it is found in the other term. -/
  | left {σ : Substitution} {v : ScopedVar} {t : ScopedTerm} {found : Bool} (hne : .var v ≠ t)
      (hsearch : σ.Searches v t found) : CompareRun σ (.var v) t (.ofBinding σ v t found)
  /-- A variable on the right is bound, unless it is found in the other term. -/
  | right {σ : Substitution} {v : ScopedVar} {s : ScopedTerm} {found : Bool}
      (hs : s.isVar = false) (hsearch : σ.Searches v s found) :
      CompareRun σ s (.var v) (.ofBinding σ v s found)
  /-- The arguments of two applications of one symbol are unified. -/
  | args {σ : Substitution} {f : Nat} {ss ts : List ScopedTerm} {attempt : UnifyAttempt}
      (hne : TermOver.app f ss ≠ .app f ts) (hlength : ss.length = ts.length)
      (hrun : ArgsRun σ ss ts attempt) : CompareRun σ (.app f ss) (.app f ts) attempt
  /-- Two different symbols, or different numbers of arguments, meet. -/
  | clash {σ : Substitution} {s t : ScopedTerm} (hne : s ≠ t) (hs : s.isVar = false)
      (ht : t.isVar = false)
      (hclash : ∀ f ss ts, s = .app f ss → t = .app f ts → ss.length ≠ ts.length) :
      CompareRun σ s t ⟨σ, some .clash⟩

/-- A run that unifies two argument lists from left to right and stops at the first failure. -/
inductive ArgsRun : Substitution → List ScopedTerm → List ScopedTerm → UnifyAttempt → Prop where
  /-- No argument is left. -/
  | nil (σ : Substitution) : ArgsRun σ [] [] ⟨σ, none⟩
  /-- The first arguments are unified, then the others under the bindings that were made. -/
  | next {σ later : Substitution} {s t : ScopedTerm} {ss ts : List ScopedTerm}
      {attempt : UnifyAttempt} (hfirst : UnifyRun σ s t ⟨later, none⟩)
      (hrest : ArgsRun later ss ts attempt) : ArgsRun σ (s :: ss) (t :: ts) attempt
  /-- The first arguments cannot be unified. -/
  | stop {σ later : Substitution} {s t : ScopedTerm} {ss ts : List ScopedTerm}
      {failure : UnificationFailure} (hfirst : UnifyRun σ s t ⟨later, some failure⟩) :
      ArgsRun σ (s :: ss) (t :: ts) ⟨later, some failure⟩

end

/-! ## What unification leaves -/

section Leaves

variable {σ : Substitution} (hσ : σ.Acyclic) (s t : ScopedTerm)

include hσ

/-- Unification makes no chain of bindings cyclic, also when it fails. -/
theorem unifyFrom_acyclic : (unifyFrom σ s t).substitution.Acyclic :=
  (unifyFrom_removes s t hσ).acyclic hσ (hσ.freeOver_remaining s t)

/-- Unification binds variables that remain in the two terms, also when it fails. -/
theorem unifyFrom_growsTo : σ.GrowsTo (unifyFrom σ s t).substitution (σ.remaining s t) :=
  (unifyFrom_removes s t hσ).growsTo (hσ.freeOver_remaining s t)

end Leaves

/-- Between terms without bound variables unification removes their disagreements. -/
theorem unifyFrom_eq_of_removes {σ : Substitution} (hσ : σ.Acyclic) {vars : Finset ScopedVar}
    {s t : ScopedTerm} (hfree : σ.FreeOver vars s t) {attempt : UnifyAttempt}
    (h : Removes σ s t attempt) : unifyFrom σ s t = attempt := by
  have hremoves := unifyFrom_removes s t hσ
  rw [hfree.apply_left, hfree.apply_right] at hremoves
  exact hremoves.unique h

/-- Following bindings beforehand does not change what unification does. -/
theorem unifyFrom_apply {σ : Substitution} (hσ : σ.Acyclic) (s t : ScopedTerm) :
    unifyFrom σ (σ.apply s) (σ.apply t) = unifyFrom σ s t :=
  unifyFrom_eq_of_removes hσ (hσ.freeOver_remaining s t) (unifyFrom_removes s t hσ)

/-! ## Comparing two terms -/

/-- Replacing a variable that does not occur changes nothing. -/
theorem replace_eq_self {v : ScopedVar} {u t : ScopedTerm} (h : v ∉ t.varOccurrences) :
    TermOver.replace v u t = t := by
  conv_rhs => rw [← t.bind_id]
  refine TermOver.bind_congr fun w hw => if_neg ?_
  rintro rfl
  exact h hw

/-- Where a variable meets a term and nothing else differs, it is bound, unless it occurs. -/
theorem removes_ofBinding {σ : Substitution} {s t u : ScopedTerm} {v : ScopedVar}
    (hfound : disagreement s t = some (.binding v u))
    (hu : ∀ w ∈ u.varOccurrences, σ.find? w = none)
    (hequal : v ∉ u.varOccurrences → TermOver.replace v u s = TermOver.replace v u t) :
    Removes σ s t (.ofBinding σ v u (σ.occurs v u)) := by
  cases hoccurs : σ.occurs v u with
  | true => exact .occurs hfound ((occurs_iff hu).1 hoccurs)
  | false =>
    have hvu : v ∉ u.varOccurrences := by
      rw [← occurs_iff hu, hoccurs]
      exact Bool.false_ne_true
    refine .bind hfound hvu (.same ?_)
    rw [hequal hvu]
    exact disagreement_self _

/-- Whatever a comparison of terms without bound variables ends with is what unification computes. -/
theorem CompareRun.eq_unifyFrom {σ : Substitution} (hσ : σ.Acyclic) {vars : Finset ScopedVar}
    {s t : ScopedTerm} (hfree : σ.FreeOver vars s t)
    (hargs : ∀ f ss ts, s = .app f ss → t = .app f ts → ss.length = ts.length →
      ∀ attempt, ArgsRun σ ss ts attempt ↔ attempt = unifyArgs σ ss ts)
    {attempt : UnifyAttempt} (h : CompareRun σ s t attempt) : attempt = unifyFrom σ s t := by
  have hs : ∀ w ∈ s.varOccurrences, σ.find? w = none := fun w hw => hfree.free w (hfree.left w hw)
  have ht : ∀ w ∈ t.varOccurrences, σ.find? w = none := fun w hw => hfree.free w (hfree.right w hw)
  cases h with
  | same => exact (unifyFrom_eq_of_removes hσ hfree (.same (disagreement_self s))).symm
  | @left _ v _ found hne hsearch =>
    rw [(hσ.searches_iff v t found).1 hsearch]
    refine (unifyFrom_eq_of_removes hσ hfree (removes_ofBinding ?_ ht fun hvt => ?_)).symm
    · rw [disagreement, if_neg hne]
    · rw [replace_eq_self hvt, TermOver.replace, TermOver.bind_var, if_pos rfl]
  | @right _ v _ found hvar hsearch =>
    rw [(hσ.searches_iff v s found).1 hsearch]
    refine (unifyFrom_eq_of_removes hσ hfree (removes_ofBinding ?_ hs fun hvs => ?_)).symm
    · cases s with
      | var w => cases hvar
      | const c => rfl
      | app f ss => rfl
    · rw [replace_eq_self hvs, TermOver.replace, TermOver.bind_var, if_pos rfl]
  | @args _ f ss ts _ hne hlength hrun =>
    rw [unifyFrom, if_pos ⟨rfl, hlength⟩]
    exact (hargs f ss ts rfl rfl hlength attempt).1 hrun
  | clash hne hvar hvar' hclash =>
    refine (unifyFrom_eq_of_removes hσ hfree (.clash ?_)).symm
    cases s with
    | var v => cases hvar
    | const c =>
      cases t with
      | var w => cases hvar'
      | const d => rw [disagreement, if_neg fun hcd => hne (congrArg _ hcd)]
      | app g ts => rfl
    | app f ss =>
      cases t with
      | var w => cases hvar'
      | const d => rfl
      | app g ts =>
        rw [disagreement, if_neg]
        rintro ⟨rfl, hlength⟩
        exact hclash f ss ts rfl rfl hlength

/-- A comparison of two terms ends if the runs through their arguments do. -/
theorem exists_compareRun {σ : Substitution} (hσ : σ.Acyclic) {s t : ScopedTerm}
    (hargs : ∀ f ss ts, s = .app f ss → t = .app f ts → ss.length = ts.length →
      ∃ attempt, ArgsRun σ ss ts attempt) : ∃ attempt, CompareRun σ s t attempt := by
  by_cases hne : s = t
  · subst hne
    exact ⟨_, .same σ s⟩
  cases s with
  | var v => exact ⟨_, .left hne ((hσ.searches_iff v t _).2 rfl)⟩
  | const c =>
    cases t with
    | var w => exact ⟨_, .right rfl ((hσ.searches_iff w _ _).2 rfl)⟩
    | const d => exact ⟨_, .clash hne rfl rfl fun f ss ts hs => nomatch hs⟩
    | app g ts => exact ⟨_, .clash hne rfl rfl fun f ss ts hs => nomatch hs⟩
  | app f ss =>
    cases t with
    | var w => exact ⟨_, .right rfl ((hσ.searches_iff w _ _).2 rfl)⟩
    | const d => exact ⟨_, .clash hne rfl rfl fun f ss ts _ ht => nomatch ht⟩
    | app g ts =>
      by_cases hsame : f = g ∧ ss.length = ts.length
      · obtain ⟨rfl, hlength⟩ := hsame
        obtain ⟨attempt, hrun⟩ := hargs f ss ts rfl rfl hlength
        exact ⟨attempt, .args hne hlength hrun⟩
      · refine ⟨_, .clash hne rfl rfl fun h ss' ts' hs ht hlength => hsame ?_⟩
        cases hs
        cases ht
        exact ⟨rfl, hlength⟩

/-- A comparison of terms without bound variables ends, with what unification computes, if the runs through
their arguments do. -/
theorem compareRun_iff {σ : Substitution} (hσ : σ.Acyclic) {vars : Finset ScopedVar}
    {s t : ScopedTerm} (hfree : σ.FreeOver vars s t)
    (hargs : ∀ f ss ts, s = .app f ss → t = .app f ts → ss.length = ts.length →
      ∀ attempt, ArgsRun σ ss ts attempt ↔ attempt = unifyArgs σ ss ts)
    (attempt : UnifyAttempt) : CompareRun σ s t attempt ↔ attempt = unifyFrom σ s t := by
  constructor
  · exact CompareRun.eq_unifyFrom hσ hfree hargs
  · rintro rfl
    obtain ⟨attempt, hrun⟩ : ∃ attempt, CompareRun σ s t attempt :=
      exists_compareRun hσ fun f ss ts hs ht hlength => ⟨_, (hargs f ss ts hs ht hlength _).2 rfl⟩
    rwa [← hrun.eq_unifyFrom hσ hfree hargs]

/-! ## Going through arguments -/

/-- The run through two argument lists ends, with what is computed, if the runs through their members do
under every substitution with a property that these runs keep. -/
theorem argsRun_iff (inv : Substitution → Prop) {ss ts : List ScopedTerm}
    (hlength : ss.length = ts.length)
    (hkeep : ∀ σ, inv σ → ∀ s ∈ ss, ∀ t ∈ ts, inv (unifyFrom σ s t).substitution)
    (hrun : ∀ σ, inv σ → ∀ s ∈ ss, ∀ t ∈ ts, ∀ attempt,
      UnifyRun σ s t attempt ↔ attempt = unifyFrom σ s t)
    {σ : Substitution} (hσ : inv σ) (attempt : UnifyAttempt) :
    ArgsRun σ ss ts attempt ↔ attempt = unifyArgs σ ss ts := by
  induction ss generalizing ts σ with
  | nil =>
    cases ts with
    | cons t ts => cases hlength
    | nil =>
      constructor
      · rintro ⟨⟩
        rfl
      · rintro rfl
        exact .nil σ
  | cons s ss ih =>
    cases ts with
    | nil => cases hlength
    | cons t ts =>
      have hhead := hrun σ hσ s List.mem_cons_self t List.mem_cons_self
      have hafter := hkeep σ hσ s List.mem_cons_self t List.mem_cons_self
      have htail := fun later (hlater : inv later) => ih (Nat.succ.inj hlength)
        (fun σ hσ s hs t ht => hkeep σ hσ s (List.mem_cons_of_mem _ hs) t (List.mem_cons_of_mem _ ht))
        (fun σ hσ s hs t ht => hrun σ hσ s (List.mem_cons_of_mem _ hs) t (List.mem_cons_of_mem _ ht))
        hlater
      rw [unifyArgs]
      split
      · next later hfirst =>
        rw [hfirst] at hhead hafter
        rw [← htail later hafter]
        constructor
        · rintro (_ | ⟨hfirst', hrest⟩ | ⟨hfirst'⟩)
          · cases (hhead _).1 hfirst'
            exact hrest
          · cases (hhead _).1 hfirst'
        · exact .next ((hhead _).2 rfl)
      · next later failure hfirst =>
        rw [hfirst] at hhead
        constructor
        · rintro (_ | ⟨hfirst', hrest⟩ | ⟨hfirst'⟩)
          · cases (hhead _).1 hfirst'
          · exact (hhead _).1 hfirst'
        · rintro rfl
          exact .stop ((hhead _).2 rfl)

/-! ## Fewer variables or smaller terms -/

section Measure

variable {σ later : Substitution} {vars : Finset ScopedVar} {s t : ScopedTerm}

/-- A later substitution leaves no variables that were not there before. -/
theorem Substitution.GrowsTo.remaining_subset (h : σ.GrowsTo later vars) (hlater : later.Acyclic)
    (hfree : σ.FreeOver vars s t) : later.remaining s t ⊆ vars := by
  intro w hw
  rcases List.mem_append.1 (List.mem_toFinset.1 hw) with hw | hw
  · exact h.mem_of_mem_apply hlater hfree.free hfree.left w hw
  · exact h.mem_of_mem_apply hlater hfree.free hfree.right w hw

/-- Where a substitution has grown, fewer variables remain. -/
theorem Substitution.GrowsTo.eq_or_card_lt (h : σ.GrowsTo later vars) (hlater : later.Acyclic)
    (hfree : σ.FreeOver vars s t) :
    later = σ ∨ (later.remaining s t).card < vars.card := by
  have hsubset := h.remaining_subset hlater hfree
  obtain ⟨added, hbindings, -, hadded⟩ := h
  cases added with
  | nil => exact Or.inl (congrArg Substitution.mk hbindings)
  | cons b added =>
    right
    -- the newest binding is of a variable that does not remain
    refine Finset.card_lt_card (Finset.ssubset_iff_of_subset hsubset |>.2 ⟨b.1, ?_, fun hb => ?_⟩)
    · exact (hadded b List.mem_cons_self).2.1
    · have hbound := (hlater.freeOver_remaining s t).free b.1 hb
      rw [find?_eq_none_iff, hbindings] at hbound
      exact hbound List.mem_cons_self

end Measure

theorem unifyRun_iff_compareRun {σ : Substitution} (hσ : σ.Acyclic) {s t : ScopedTerm}
    {attempt : UnifyAttempt} :
    UnifyRun σ s t attempt ↔ CompareRun σ (σ.apply s) (σ.apply t) attempt := by
  constructor
  · rintro ⟨hs, ht, hrun⟩
    rwa [(hσ.applies_iff _ _).1 hs, (hσ.applies_iff _ _).1 ht] at hrun
  · exact .followed ((hσ.applies_iff _ _).2 rfl) ((hσ.applies_iff _ _).2 rfl)

/-- Comparing terms with at most `n` variables ends, if unifying terms in which fewer remain does. -/
theorem compareRun_iff_of_fewer {n : Nat}
    (hfewer : ∀ σ : Substitution, σ.Acyclic → ∀ s t, (σ.remaining s t).card < n →
      ∀ attempt, UnifyRun σ s t attempt ↔ attempt = unifyFrom σ s t)
    {σ : Substitution} (hσ : σ.Acyclic) {vars : Finset ScopedVar} (hn : vars.card ≤ n)
    {s t : ScopedTerm} (hfree : σ.FreeOver vars s t) (attempt : UnifyAttempt) :
    CompareRun σ s t attempt ↔ attempt = unifyFrom σ s t := by
  -- while no binding is made the terms get smaller
  induction s using TermOver.induction generalizing t attempt with
  | var v => exact compareRun_iff hσ hfree (fun f ss ts hs => nomatch hs) attempt
  | const c => exact compareRun_iff hσ hfree (fun f ss ts hs => nomatch hs) attempt
  | app f ss ih =>
    refine compareRun_iff hσ hfree (fun f' ss' ts hs ht hlength => ?_) attempt
    cases hs
    subst ht
    refine argsRun_iff (fun later => later.Acyclic ∧ σ.GrowsTo later vars) hlength ?_ ?_
      ⟨hσ, .refl σ vars⟩
    · rintro later ⟨hlater, hgrows⟩ s hs t ht
      have hsubset := hgrows.remaining_subset hlater (hfree.of_mem hs ht)
      exact ⟨unifyFrom_acyclic hlater s t,
        hgrows.trans ((unifyFrom_growsTo hlater s t).mono hsubset)⟩
    · rintro later ⟨hlater, hgrows⟩ s hs t ht attempt
      have hargs := hfree.of_mem hs ht
      rcases hgrows.eq_or_card_lt hlater hargs with rfl | hlt
      · rw [unifyRun_iff_compareRun hσ, hargs.apply_left, hargs.apply_right]
        exact ih s hs hargs attempt
      · exact hfewer later hlater s t (Nat.lt_of_lt_of_le hlt hn) attempt

/-- Unification under an acyclic substitution ends on any two terms, with what is computed. -/
theorem unifyRun_iff {σ : Substitution} (hσ : σ.Acyclic) (s t : ScopedTerm)
    (attempt : UnifyAttempt) : UnifyRun σ s t attempt ↔ attempt = unifyFrom σ s t := by
  induction hn : (σ.remaining s t).card using Nat.strongRecOn generalizing σ s t attempt with
  | ind n ih =>
    rw [unifyRun_iff_compareRun hσ, ← unifyFrom_apply hσ s t]
    refine compareRun_iff_of_fewer (fun τ hτ s t hlt attempt => ?_) hσ (Nat.le_of_eq hn)
      (hσ.freeOver_remaining s t) attempt
    exact ih _ hlt hτ s t attempt rfl

/-! ## All runs -/

/-- Unification under an acyclic substitution ends and leaves an acyclic substitution, whatever it ends with:

* applying the substitution, the occurs check and unification end on all terms, each with the one result
  that is computed;
* afterwards no chain of bindings is cyclic;
* every binding is still there, unchanged;
* what is bound and was not bound before is a variable that remained in one of the terms, and no variable
  was bound twice;
* applying the substitution twice is applying it once. -/
theorem unification_terminates {σ : Substitution} (hσ : σ.Acyclic) (s t : ScopedTerm) :
    (∀ u, σ.Applies s u ↔ u = σ.apply s) ∧
    (∀ v found, σ.Searches v s found ↔ found = σ.occurs v s) ∧
    (∀ attempt, UnifyRun σ s t attempt ↔ attempt = unifyFrom σ s t) ∧
    ∀ attempt, UnifyRun σ s t attempt →
      attempt.substitution.Acyclic ∧
      (∀ v u, σ.find? v = some u → attempt.substitution.find? v = some u) ∧
      (∀ v u, attempt.substitution.find? v = some u →
        σ.find? v = some u ∨ σ.find? v = none ∧ v ∈ σ.remaining s t) ∧
      (∃ added, attempt.substitution.bindings = added ++ σ.bindings ∧ (added.map Prod.fst).Nodup) ∧
      ∀ u, attempt.substitution.apply (attempt.substitution.apply u) = attempt.substitution.apply u := by
  refine ⟨hσ.applies_iff s, fun v => hσ.searches_iff v s, unifyRun_iff hσ s t, fun attempt hrun => ?_⟩
  rw [(unifyRun_iff hσ s t attempt).1 hrun]
  have hacyclic := unifyFrom_acyclic hσ s t
  have hgrows := unifyFrom_growsTo hσ s t
  refine ⟨hacyclic, fun v u => hgrows.find?_eq_some, fun v u hv => ?_, ?_, hacyclic.apply_apply⟩
  · rcases hgrows.of_find?_eq_some hv with hold | ⟨hfree, hmem, -⟩
    · exact Or.inl hold
    · exact Or.inr ⟨hfree, hmem⟩
  · obtain ⟨added, hbindings, hnodup, -⟩ := hgrows
    exact ⟨added, hbindings, hnodup⟩

/-- With `z` bound to `x`, unifying `f(z, y)` with `f(g(y), g(z))` binds `x` to `g(y)` and then meets `y` behind
its own binding. The binding of `x` stays, and no chain of bindings is cyclic. -/
theorem unification_terminates_occursCheck :
    let σ : Substitution := Substitution.empty.insert ⟨1, 0⟩ (.var ⟨0, 0⟩)
    let s : ScopedTerm := .app 0 [.var ⟨1, 0⟩, .var ⟨0, 1⟩]
    let t : ScopedTerm := .app 0 [.app 1 [.var ⟨0, 1⟩], .app 1 [.var ⟨1, 0⟩]]
    let later := σ.insert ⟨0, 0⟩ (.app 1 [.var ⟨0, 1⟩])
    σ.Acyclic ∧ UnifyRun σ s t ⟨later, some .occursCheck⟩ ∧ later.Acyclic ∧
      later.find? ⟨1, 0⟩ = some (.var ⟨0, 0⟩) := by
  intro σ s t later
  have hσ : σ.Acyclic := acyclic_empty.insert (fun _ _ => rfl) (by decide)
  obtain ⟨-, -, hends, hleaves⟩ := unification_terminates hσ s t
  have hrun : UnifyRun σ s t ⟨later, some .occursCheck⟩ := (hends _).2 (by decide)
  obtain ⟨hacyclic, hkept, -⟩ := hleaves _ hrun
  exact ⟨hσ, hrun, hacyclic, hkept _ _ rfl⟩

end GivenClause
