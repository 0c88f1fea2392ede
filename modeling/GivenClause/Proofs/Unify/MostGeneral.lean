import Mathlib.Data.Finset.Card
import GivenClause.Proofs.Unify.Instances
import GivenClause.Proofs.Unify.Solutions
import GivenClause.Unify.Robinson

/-! # Unification finds most general unifiers

Every stage of unification either ends with a substitution whose solutions are those solutions of the
first substitution that also make the two terms equal, or ends with a failure, and then there are no
such solutions. Since application goes through every solution, the substitution that is returned is
most general.

* `Reports`, `disagreement_reports`: what the leftmost difference of two terms tells about their unifiers;
* `UnifyAttempt.Decides`: the property that each stage has, with one lemma for each stage up to
  `unifyFrom_decides`;
* `unify_mostGeneral`: unification decides whether there are unifiers and returns a most general one. -/

namespace GivenClause

open Substitution InsertionOrder

/-! ## Disagreements -/

/-- Two applications become equal where the symbols are the same and the arguments become equal. -/
theorem bind_app_eq_iff {θ : ScopedVar → ScopedTerm} {f g : Nat} {ss ts : List ScopedTerm} :
    (TermOver.app f ss).bind θ = (TermOver.app g ts).bind θ ↔
      f = g ∧ ss.map (TermOver.bind θ) = ts.map (TermOver.bind θ) := by
  rw [TermOver.bind_app, TermOver.bind_app, TermOver.app.injEq]

/-- Applications with different symbols or numbers of arguments never become equal. -/
theorem bind_app_ne {f g : Nat} {ss ts : List ScopedTerm} (h : ¬ (f = g ∧ ss.length = ts.length))
    (θ : ScopedVar → ScopedTerm) : (TermOver.app f ss).bind θ ≠ (TermOver.app g ts).bind θ := by
  intro hθ
  obtain ⟨hf, hargs⟩ := bind_app_eq_iff.1 hθ
  exact h ⟨hf, by simpa using congrArg List.length hargs⟩

/-- What the leftmost difference of two things tells, where `vars` are the variables in them and `unifies`
are the replacements that make them equal. -/
inductive Reports (equal : Prop) (vars : List ScopedVar)
    (unifies : (ScopedVar → ScopedTerm) → Prop) : Option Disagreement → Prop where
  /-- There is no difference. -/
  | same (h : equal) : Reports equal vars unifies none
  /-- Nothing makes them equal. -/
  | clash (h : ∀ θ, ¬ unifies θ) : Reports equal vars unifies (some .clash)
  /-- Whatever makes them equal makes a variable equal to another term. -/
  | binding {v : ScopedVar} {u : ScopedTerm} (hne : u ≠ .var v) (hv : v ∈ vars)
      (hu : ∀ w ∈ u.varOccurrences, w ∈ vars) (h : ∀ θ, unifies θ → θ v = u.bind θ) :
      Reports equal vars unifies (some (.binding v u))

/-- A difference that is found stays one among more variables and fewer unifiers. -/
theorem Reports.widen {equal equal' : Prop} {vars vars' : List ScopedVar}
    {unifies unifies' : (ScopedVar → ScopedTerm) → Prop} {found : Option Disagreement}
    (h : Reports equal vars unifies found) (hequal : found = none → equal → equal')
    (hvars : ∀ v ∈ vars, v ∈ vars') (hunifies : ∀ θ, unifies' θ → unifies θ) :
    Reports equal' vars' unifies' found := by
  cases h with
  | same h => exact .same (hequal rfl h)
  | clash h => exact .clash fun θ hθ => h θ (hunifies θ hθ)
  | binding hne hv hu h =>
    exact .binding hne (hvars _ hv) (fun w hw => hvars w (hu w hw)) fun θ hθ => h θ (hunifies θ hθ)

/-- The report on two argument lists of equal length, given the reports on their members. -/
theorem disagreementList_reports {ss ts : List ScopedTerm} (hlength : ss.length = ts.length)
    (h : ∀ s ∈ ss, ∀ t, Reports (s = t) (s.varOccurrences ++ t.varOccurrences)
      (fun θ => s.bind θ = t.bind θ) (disagreement s t)) :
    Reports (ss = ts)
      (ss.flatMap TermOver.varOccurrences ++ ts.flatMap TermOver.varOccurrences)
      (fun θ => ss.map (TermOver.bind θ) = ts.map (TermOver.bind θ)) (disagreementList ss ts) := by
  induction ss generalizing ts with
  | nil =>
    cases ts with
    | nil => exact .same rfl
    | cons t ts => cases hlength
  | cons s ss ih =>
    cases ts with
    | nil => cases hlength
    | cons t ts =>
      have hhead := h s List.mem_cons_self t
      have htail := ih (Nat.succ.inj hlength) fun s' hs' => h s' (List.mem_cons_of_mem s hs')
      rw [disagreementList]
      cases hfound : disagreement s t with
      | none =>
        rw [hfound] at hhead
        cases hhead with
        | same heq =>
          -- the heads are equal, so the difference of the tails is the first one
          refine htail.widen (fun _ htails => by rw [heq, htails]) ?_ fun θ hθ => (List.cons.inj hθ).2
          intro v hv
          rw [List.flatMap_cons, List.flatMap_cons]
          rcases List.mem_append.1 hv with hv | hv <;> simp [hv]
      | some found =>
        rw [hfound] at hhead
        refine hhead.widen nofun ?_ fun θ hθ => (List.cons.inj hθ).1
        intro v hv
        rw [List.flatMap_cons, List.flatMap_cons]
        rcases List.mem_append.1 hv with hv | hv <;> simp [hv]

/-- The report on two terms. -/
theorem disagreement_reports (s t : ScopedTerm) :
    Reports (s = t) (s.varOccurrences ++ t.varOccurrences) (fun θ => s.bind θ = t.bind θ)
      (disagreement s t) := by
  induction s using TermOver.induction generalizing t with
  | var v =>
    rw [disagreement]
    split
    · next h => exact .same h
    · next h => exact .binding (Ne.symm h) (by simp) (fun w => List.mem_append_right _) fun θ hθ => hθ
  | const c =>
    cases t with
    | var w =>
      rw [disagreement]
      exact .binding nofun (by simp) nofun fun θ hθ => hθ.symm
    | const d =>
      rw [disagreement]
      split
      · next h => exact .same (congrArg _ h)
      · next h => exact .clash fun θ hθ => h (TermOver.const.inj hθ)
    | app g ts =>
      rw [disagreement]
      refine .clash fun θ hθ => ?_
      rw [TermOver.bind_const, TermOver.bind_app] at hθ
      cases hθ
  | app f ss ih =>
    cases t with
    | var w =>
      rw [disagreement]
      exact .binding nofun (by simp) (fun x => List.mem_append_left _) fun θ hθ => hθ.symm
    | const d =>
      rw [disagreement]
      refine .clash fun θ hθ => ?_
      rw [TermOver.bind_const, TermOver.bind_app] at hθ
      cases hθ
    | app g ts =>
      rw [disagreement]
      split
      · next h =>
        obtain ⟨rfl, hlength⟩ := h
        refine (disagreementList_reports hlength ih).widen (fun _ => congrArg _) ?_
          fun θ hθ => (bind_app_eq_iff.1 hθ).2
        rw [TermOver.varOccurrences_app, TermOver.varOccurrences_app]
        exact fun v hv => hv
      · next h => exact .clash (bind_app_ne h)

theorem eq_of_disagreement_eq_none {s t : ScopedTerm} (h : disagreement s t = none) : s = t := by
  have hreport := disagreement_reports s t
  rw [h] at hreport
  cases hreport with
  | same heq => exact heq

theorem bind_ne_of_clash {s t : ScopedTerm} (h : disagreement s t = some .clash)
    (θ : ScopedVar → ScopedTerm) : s.bind θ ≠ t.bind θ := by
  have hreport := disagreement_reports s t
  rw [h] at hreport
  cases hreport with
  | clash hclash => exact hclash θ

/-! ## What a stage of unification decides -/

/-- A stage that starts from `σ` and has to make `goal` true keeps what is bound, and ends with a
substitution that has the solutions of `σ` with `goal`, or fails when there are none. -/
structure UnifyAttempt.Decides (attempt : UnifyAttempt) (σ : Substitution)
    (goal : (ScopedVar → ScopedTerm) → Prop) : Prop where
  /-- No chain of bindings is cyclic, also after a failure. -/
  acyclic : attempt.substitution.Acyclic
  /-- Bindings are added and never changed. -/
  keeps : ∀ v t, σ.find? v = some t → attempt.substitution.find? v = some t
  /-- A success has the right solutions. -/
  success : attempt.failure = none → ∀ θ, Solves θ attempt.substitution ↔ Solves θ σ ∧ goal θ
  /-- A failure is justified. -/
  failure : attempt.failure ≠ none → ∀ θ, Solves θ σ → ¬ goal θ

namespace UnifyAttempt.Decides

variable {σ : Substitution} {goal goal' : (ScopedVar → ScopedTerm) → Prop}

/-- A stage with nothing left to do. -/
theorem done (h : σ.Acyclic) (hgoal : ∀ θ, goal θ) : Decides ⟨σ, none⟩ σ goal where
  acyclic := h
  keeps := fun _ _ ht => ht
  success := fun _ θ => ⟨fun hθ => ⟨hθ, hgoal θ⟩, And.left⟩
  failure := fun hfail => absurd rfl hfail

/-- A stage that cannot succeed. -/
theorem failed (h : σ.Acyclic) (failure : UnificationFailure) (hgoal : ∀ θ, ¬ goal θ) :
    Decides ⟨σ, some failure⟩ σ goal where
  acyclic := h
  keeps := fun _ _ ht => ht
  success := nofun
  failure := fun _ θ _ => hgoal θ

/-- Only the solutions of the first substitution matter for the goal. -/
theorem congr {attempt : UnifyAttempt} (h : attempt.Decides σ goal)
    (hgoal : ∀ θ, Solves θ σ → (goal θ ↔ goal' θ)) : attempt.Decides σ goal' where
  acyclic := h.acyclic
  keeps := h.keeps
  success := fun hsuccess θ => (h.success hsuccess θ).trans (and_congr_right (hgoal θ))
  failure := fun hfail θ hθ hgoal' => h.failure hfail θ hθ ((hgoal θ hθ).2 hgoal')

/-- Binding a free variable that every unifier binds in this way, and going on from there. -/
theorem insert {attempt : UnifyAttempt} {v : ScopedVar} {u : ScopedTerm}
    (hv : σ.find? v = none) (hgoal : ∀ θ, goal θ → θ v = u.bind θ)
    (h : attempt.Decides (σ.insert v u) goal) : attempt.Decides σ goal where
  acyclic := h.acyclic
  keeps := by
    intro w t ht
    refine h.keeps w t ?_
    rw [find?_insert, if_neg, ht]
    rintro rfl
    rw [hv] at ht
    cases ht
  success := by
    intro hsuccess θ
    rw [h.success hsuccess θ, solves_insert hv]
    exact ⟨fun ⟨⟨hθ, _⟩, hθgoal⟩ => ⟨hθ, hθgoal⟩,
      fun ⟨hθ, hθgoal⟩ => ⟨⟨hθ, hgoal θ hθgoal⟩, hθgoal⟩⟩
  failure := fun hfail θ hθ hθgoal =>
    h.failure hfail θ ((solves_insert hv).2 ⟨hθ, hgoal θ hθgoal⟩) hθgoal

/-- Two stages one after the other. -/
theorem andThen {first second : UnifyAttempt} (hfirst : first.Decides σ goal)
    (hnone : first.failure = none) (hsecond : second.Decides first.substitution goal') :
    second.Decides σ fun θ => goal θ ∧ goal' θ where
  acyclic := hsecond.acyclic
  keeps := fun v t ht => hsecond.keeps v t (hfirst.keeps v t ht)
  success := by
    intro hsuccess θ
    rw [hsecond.success hsuccess θ, hfirst.success hnone θ, and_assoc]
  failure := fun hfail θ hθ ⟨hgoal, hgoal'⟩ =>
    hsecond.failure hfail θ ((hfirst.success hnone θ).2 ⟨hθ, hgoal⟩) hgoal'

end UnifyAttempt.Decides

/-! ## Removing disagreements -/

/-- A replacement that makes `v` equal to `u` does not see whether `v` was replaced by `u` before. -/
theorem bind_replace {θ : ScopedVar → ScopedTerm} {v : ScopedVar} {u : ScopedTerm}
    (h : θ v = u.bind θ) (t : ScopedTerm) : (TermOver.replace v u t).bind θ = t.bind θ := by
  rw [TermOver.replace, TermOver.bind_bind]
  refine TermOver.bind_congr fun w _ => ?_
  by_cases hw : w = v
  · rw [if_pos hw, hw, h]
  · rw [if_neg hw, TermOver.bind_var]

/-- The variables after replacing `v` by `u`. -/
theorem mem_varOccurrences_replace {v w : ScopedVar} {u t : ScopedTerm}
    (h : w ∈ (TermOver.replace v u t).varOccurrences) :
    w ∈ u.varOccurrences ∨ w ≠ v ∧ w ∈ t.varOccurrences := by
  obtain ⟨x, hx, hw⟩ := TermOver.mem_varOccurrences_bind.1 h
  by_cases hxv : x = v
  · rw [if_pos hxv] at hw
    exact Or.inl hw
  · rw [if_neg hxv, TermOver.varOccurrences_var, List.mem_singleton] at hw
    exact Or.inr (hw ▸ ⟨hxv, hx⟩)

/-- Removing disagreements decides whether the two terms can be made equal, given a round for each
variable. -/
theorem unifyApplied_decides {rounds : Nat} {s t : ScopedTerm} {σ : Substitution} (hσ : σ.Acyclic)
    {vars : Finset ScopedVar} (hvars : ∀ w ∈ s.varOccurrences ++ t.varOccurrences, w ∈ vars)
    (hfree : ∀ w ∈ vars, σ.find? w = none) (hrounds : vars.card ≤ rounds) :
    (unifyApplied rounds s t σ).Decides σ fun θ => s.bind θ = t.bind θ := by
  induction rounds generalizing s t σ vars with
  | zero =>
    rw [unifyApplied]
    split
    · next hfound => exact .done hσ fun θ => congrArg _ (eq_of_disagreement_eq_none hfound)
    · next found hfound =>
      have hreport := disagreement_reports s t
      rw [hfound] at hreport
      cases hreport with
      | clash h => exact .failed hσ _ h
      | binding _ hv _ _ =>
        -- no round is left, so there is no variable that could be bound
        rw [Finset.card_eq_zero.1 (Nat.le_zero.1 hrounds)] at hvars
        exact absurd (hvars _ hv) (Finset.notMem_empty _)
  | succ rounds ih =>
    rw [unifyApplied]
    split
    · next hfound => exact .done hσ fun θ => congrArg _ (eq_of_disagreement_eq_none hfound)
    · next hfound => exact .failed hσ _ (bind_ne_of_clash hfound)
    · next v u hfound =>
      have hreport := disagreement_reports s t
      rw [hfound] at hreport
      cases hreport with
      | binding hne hv hu h =>
        have hufree : ∀ w ∈ u.varOccurrences, σ.find? w = none :=
          fun w hw => hfree w (hvars w (hu w hw))
        split
        · next hoccurs =>
          have hvu := (occurs_iff hufree).1 hoccurs
          exact .failed hσ _ fun θ hθ => TermOver.ne_bind_of_mem hvu hne (h θ hθ)
        · next hoccurs =>
          have hvu : v ∉ u.varOccurrences := fun hvu => hoccurs ((occurs_iff hufree).2 hvu)
          have hvin := hvars v hv
          -- the next round has one variable less
          have hnext := @ih (TermOver.replace v u s) (TermOver.replace v u t) (σ.insert v u)
            (hσ.insert hufree hvu) (vars.erase v) ?_ ?_ ?_
          · refine .insert (hfree v hvin) h (hnext.congr fun θ hθ => ?_)
            have hθv := ((solves_insert (hfree v hvin)).1 hθ).2
            rw [bind_replace hθv, bind_replace hθv]
          · -- `v` does not come back, since it does not occur in `u`
            have hkept : ∀ w ∈ u.varOccurrences, w ∈ vars.erase v := fun w hw =>
              Finset.mem_erase.2 ⟨fun hwv => hvu (hwv ▸ hw), hvars w (hu w hw)⟩
            intro w hw
            rcases List.mem_append.1 hw with hw | hw <;>
              rcases mem_varOccurrences_replace hw with hw | ⟨hwv, hw⟩
            · exact hkept w hw
            · exact Finset.mem_erase.2 ⟨hwv, hvars w (List.mem_append_left _ hw)⟩
            · exact hkept w hw
            · exact Finset.mem_erase.2 ⟨hwv, hvars w (List.mem_append_right _ hw)⟩
          · intro w hw
            obtain ⟨hwv, hw⟩ := Finset.mem_erase.1 hw
            rw [find?_insert, if_neg hwv]
            exact hfree w hw
          · rw [Finset.card_erase_of_mem hvin]
            omega

/-- Applying the substitution and removing disagreements decides whether two terms can be made
equal. -/
theorem applyAndUnify_decides {σ : Substitution} (hσ : σ.Acyclic) (s t : ScopedTerm) :
    (applyAndUnify σ s t).Decides σ fun θ => s.bind θ = t.bind θ := by
  have happlied := @unifyApplied_decides
    ((σ.apply s).varOccurrences.length + (σ.apply t).varOccurrences.length) (σ.apply s) (σ.apply t) σ
    hσ ((σ.apply s).varOccurrences ++ (σ.apply t).varOccurrences).toFinset
    (fun w hw => List.mem_toFinset.2 hw) ?_ ?_
  · refine happlied.congr fun θ hθ => ?_
    rw [hθ.apply_bind hσ, hθ.apply_bind hσ]
  · intro w hw
    rcases List.mem_append.1 (List.mem_toFinset.1 hw) with hw | hw <;>
      exact hσ.find?_eq_none_of_mem_apply hw
  · rw [← List.length_append]
    exact List.toFinset_card_le _

/-! ## Walking the two terms -/

/-- The arguments are unified from left to right, each under the bindings made before it. -/
theorem unifyArgs_decides {ss ts : List ScopedTerm} (hlength : ss.length = ts.length)
    (h : ∀ s ∈ ss, ∀ (t : ScopedTerm) (σ : Substitution), σ.Acyclic →
      (unifyFrom σ s t).Decides σ fun θ => s.bind θ = t.bind θ)
    {σ : Substitution} (hσ : σ.Acyclic) :
    (unifyArgs σ ss ts).Decides σ fun θ => ss.map (TermOver.bind θ) = ts.map (TermOver.bind θ) := by
  induction ss generalizing ts σ with
  | nil =>
    cases ts with
    | nil => exact .done hσ fun θ => rfl
    | cons t ts => cases hlength
  | cons s ss ih =>
    cases ts with
    | nil => cases hlength
    | cons t ts =>
      have hfirst := h s List.mem_cons_self t σ hσ
      rw [unifyArgs]
      split
      · next σ' hattempt =>
        rw [hattempt] at hfirst
        have hrest := ih (Nat.succ.inj hlength)
          (fun s' hs' => h s' (List.mem_cons_of_mem s hs')) hfirst.acyclic
        refine (hfirst.andThen rfl hrest).congr fun θ _ => ?_
        rw [List.map_cons, List.map_cons, List.cons.injEq]
      · next σ' failure hattempt =>
        -- where the first arguments cannot be made equal, the lists cannot
        rw [hattempt] at hfirst
        exact {
          acyclic := hfirst.acyclic
          keeps := hfirst.keeps
          success := nofun
          failure := fun hfail θ hθ hgoal => hfirst.failure hfail θ hθ (List.cons.inj hgoal).1 }

/-- Unification of two terms decides whether they can be made equal. -/
theorem unifyFrom_decides (s t : ScopedTerm) {σ : Substitution} (hσ : σ.Acyclic) :
    (unifyFrom σ s t).Decides σ fun θ => s.bind θ = t.bind θ := by
  induction s using TermOver.induction generalizing t σ with
  | var v =>
    rw [unifyFrom]
    exact applyAndUnify_decides hσ _ _
  | const c =>
    rw [unifyFrom]
    exact applyAndUnify_decides hσ _ _
  | app f ss ih =>
    cases t with
    | var w =>
      rw [unifyFrom]
      exact applyAndUnify_decides hσ _ _
    | const d =>
      rw [unifyFrom]
      exact applyAndUnify_decides hσ _ _
    | app g ts =>
      rw [unifyFrom]
      split
      · next h =>
        obtain ⟨rfl, hlength⟩ := h
        refine (unifyArgs_decides hlength (fun s hs t _ => ih s hs t) hσ).congr fun θ _ => ?_
        rw [bind_app_eq_iff, eq_self, true_and]
      · next h => exact .failed hσ _ (bind_app_ne h)

/-! ## Most general unifiers -/

/-- A replacement solves `σ₀` and makes `s` and `t` equal. -/
def Unifies (σ₀ : Substitution) (s t : ScopedTerm) (θ : ScopedVar → ScopedTerm) : Prop :=
  Solves θ σ₀ ∧ s.bind θ = t.bind θ

/-- A substitution whose application unifies `s` and `t` and through which every unifier goes. -/
structure MostGeneralUnifier (σ₀ : Substitution) (s t : ScopedTerm) (σ : Substitution) : Prop where
  /-- Applying it is a unifier. -/
  unifies : Unifies σ₀ s t fun v => σ.apply (.var v)
  /-- Both terms become the same term. -/
  apply_eq : σ.apply s = σ.apply t
  /-- A unifier does not see whether it was applied before. -/
  general : ∀ θ, Unifies σ₀ s t θ → ∀ u, (σ.apply u).bind θ = u.bind θ
  /-- Instances of the two sides under one numbering are the same plain term, and the second side has
  no new variables. -/
  instantiate_eq : ∀ (t₁ t₂ : Term) (scope₁ scope₂ : Nat), s = t₁.lift scope₁ → t = t₂.lift scope₂ →
    ∀ ρ, instantiate σ scope₂ (instantiate σ scope₁ ρ t₁).2 t₂ = instantiate σ scope₁ ρ t₁

/-- Two terms that a substitution makes equal have the same instance under one numbering. -/
theorem instantiate_instantiate {σ : Substitution} {t₁ t₂ : Term} {scope₁ scope₂ : Nat}
    (h : σ.apply (t₁.lift scope₁) = σ.apply (t₂.lift scope₂)) (ρ : Renaming) :
    instantiate σ scope₂ (instantiate σ scope₁ ρ t₁).2 t₂ = instantiate σ scope₁ ρ t₁ := by
  have hextend : (ρ.extend (σ.apply (t₁.lift scope₁))).extend (σ.apply (t₂.lift scope₂)) =
      ρ.extend (σ.apply (t₁.lift scope₁)) := by
    rw [← h]
    exact Renaming.extend_eq_self fun v hv => Renaming.mem_extend.2 (Or.inr hv)
  simp only [instantiate, hextend]
  rw [h]

/-- A stage that succeeds leaves a most general unifier. -/
theorem UnifyAttempt.Decides.mostGeneralUnifier {attempt : UnifyAttempt} {σ₀ : Substitution}
    {s t : ScopedTerm} (h : attempt.Decides σ₀ fun θ => s.bind θ = t.bind θ)
    (hsuccess : attempt.failure = none) : MostGeneralUnifier σ₀ s t attempt.substitution := by
  have hunifies := (h.success hsuccess _).1 h.acyclic.solves
  exact {
    unifies := hunifies
    -- replacing by the applied variables is applying
    apply_eq := hunifies.2
    general := fun θ hθ u => ((h.success hsuccess θ).2 hθ).apply_bind h.acyclic u
    instantiate_eq := by
      rintro t₁ t₂ scope₁ scope₂ rfl rfl ρ
      exact instantiate_instantiate hunifies.2 ρ }

/-- A stage succeeds exactly when there are unifiers. -/
theorem UnifyAttempt.Decides.failure_eq_none_iff {attempt : UnifyAttempt} {σ₀ : Substitution}
    {s t : ScopedTerm} (h : attempt.Decides σ₀ fun θ => s.bind θ = t.bind θ) :
    attempt.failure = none ↔ ∃ θ, Unifies σ₀ s t θ := by
  constructor
  · intro hsuccess
    exact ⟨_, (h.mostGeneralUnifier hsuccess).unifies⟩
  · rintro ⟨θ, hθ, hgoal⟩
    by_contra hfail
    exact h.failure hfail θ hθ hgoal

theorem unify_eq_ok_iff {t₁ t₂ : Term} {scope₁ scope₂ : Nat} {σ : Substitution} :
    unify t₁ scope₁ t₂ scope₂ = .ok σ ↔
      unifyFrom .empty (t₁.lift scope₁) (t₂.lift scope₂) = ⟨σ, none⟩ := by
  rw [unify]
  rcases unifyFrom .empty (t₁.lift scope₁) (t₂.lift scope₂) with ⟨τ, _ | failure⟩ <;> simp

/-- Unification decides whether two terms can be made equal and returns a most general unifier, from
scratch for terms of two scopes and from any substitution without cycles. -/
theorem unify_mostGeneral :
    (∀ (t₁ t₂ : Term) (scope₁ scope₂ : Nat),
      ((∃ σ, unify t₁ scope₁ t₂ scope₂ = .ok σ) ↔
        ∃ θ : ScopedVar → ScopedTerm, (t₁.lift scope₁).bind θ = (t₂.lift scope₂).bind θ) ∧
      ∀ σ, unify t₁ scope₁ t₂ scope₂ = .ok σ →
        σ.apply (t₁.lift scope₁) = σ.apply (t₂.lift scope₂) ∧
        (∀ θ : ScopedVar → ScopedTerm, (t₁.lift scope₁).bind θ = (t₂.lift scope₂).bind θ →
          ∀ u, (σ.apply u).bind θ = u.bind θ) ∧
        ∀ ρ, instantiate σ scope₂ (instantiate σ scope₁ ρ t₁).2 t₂ = instantiate σ scope₁ ρ t₁) ∧
    ∀ σ₀ : Substitution, σ₀.Acyclic → ∀ s t : ScopedTerm,
      ((unifyFrom σ₀ s t).failure = none ↔ ∃ θ, Unifies σ₀ s t θ) ∧
      ((unifyFrom σ₀ s t).failure = none →
        MostGeneralUnifier σ₀ s t (unifyFrom σ₀ s t).substitution) := by
  refine ⟨fun t₁ t₂ scope₁ scope₂ => ?_, fun σ₀ hσ₀ s t => ?_⟩
  · have hdecides := unifyFrom_decides (t₁.lift scope₁) (t₂.lift scope₂) acyclic_empty
    simp only [unify_eq_ok_iff]
    constructor
    · have hiff := hdecides.failure_eq_none_iff
      rcases hattempt : unifyFrom .empty (t₁.lift scope₁) (t₂.lift scope₂) with ⟨τ, failure⟩
      rw [hattempt] at hiff
      simpa [Unifies, solves_empty] using hiff
    · intro σ hattempt
      rw [hattempt] at hdecides
      have hmost := hdecides.mostGeneralUnifier rfl
      exact ⟨hmost.apply_eq, fun θ hθ => hmost.general θ ⟨solves_empty θ, hθ⟩,
        hmost.instantiate_eq t₁ t₂ scope₁ scope₂ rfl rfl⟩
  · have hdecides := unifyFrom_decides s t hσ₀
    exact ⟨hdecides.failure_eq_none_iff, hdecides.mostGeneralUnifier⟩

/-- With `y` of the first premise bound to `g(z)`, the terms `f(x, y)` and `f(y, g(a))` unify. -/
theorem unify_mostGeneral_chain :
    let σ₀ := Substitution.empty.insert ⟨0, 1⟩ (.app 1 [.var ⟨1, 0⟩])
    let s : ScopedTerm := .app 0 [.var ⟨0, 0⟩, .var ⟨0, 1⟩]
    let t : ScopedTerm := .app 0 [.var ⟨0, 1⟩, .app 1 [.const 5]]
    σ₀.Acyclic ∧ (unifyFrom σ₀ s t).failure = none ∧
      MostGeneralUnifier σ₀ s t (unifyFrom σ₀ s t).substitution := by
  intro σ₀ s t
  have hσ₀ : σ₀.Acyclic := acyclic_empty.insert (fun _ _ => rfl) (by decide)
  have hsuccess : (unifyFrom σ₀ s t).failure = none := by decide
  exact ⟨hσ₀, hsuccess, (unify_mostGeneral.2 σ₀ hσ₀ s t).2 hsuccess⟩

end GivenClause
