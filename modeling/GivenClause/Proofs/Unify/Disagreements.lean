import GivenClause.Proofs.Unify.Chains
import GivenClause.Proofs.Unify.MostGeneral

/-! # Removing disagreements

Unification removes the disagreements of two terms one by one, from left to right, in a number of rounds
that is fixed beforehand. Since every binding takes a variable out of both terms, the rounds are never used
up, and what is done can be told without them. It can then be cut anywhere: to remove the disagreements of
two argument lists is to remove those of the first arguments and then, under the bindings made for them,
those of the others.

* `Removes` is a removal without rounds, `unifyApplied_removes` says that the rounds are enough;
* `Substitution.GrowsTo` relates a substitution to a later one, `Removes.growsTo` says which bindings a
  removal makes;
* `Removes.cons` and `Removes.cons_failed` go through argument lists;
* `unifyFrom_removes`: unification removes the disagreements of the two terms under the substitution. -/

namespace GivenClause

open Substitution

/-! ## Later substitutions -/

namespace Substitution

theorem find?_eq_none_iff {σ : Substitution} {v : ScopedVar} :
    σ.find? v = none ↔ v ∉ σ.bindings.map Prod.fst := by
  rw [find?, ← isSome_lookup_iff, Bool.not_eq_true, Option.isSome_eq_false_iff, Option.isNone_iff_eq_none]

/-- The bindings of `σ` are there, and in front of them are new ones. Each of these binds a variable of
`vars` that was not bound, no variable twice, and to a term over `vars`. -/
def GrowsTo (σ later : Substitution) (vars : Finset ScopedVar) : Prop :=
  ∃ added : List (ScopedVar × ScopedTerm), later.bindings = added ++ σ.bindings ∧
    (added.map Prod.fst).Nodup ∧
    ∀ b ∈ added, σ.find? b.1 = none ∧ b.1 ∈ vars ∧ ∀ w ∈ b.2.varOccurrences, w ∈ vars

namespace GrowsTo

variable {σ later : Substitution} {vars vars' : Finset ScopedVar}

theorem refl (σ : Substitution) (vars : Finset ScopedVar) : σ.GrowsTo σ vars :=
  ⟨[], rfl, List.nodup_nil, fun _ h => absurd h List.not_mem_nil⟩

theorem mono (h : σ.GrowsTo later vars) (hvars : vars ⊆ vars') : σ.GrowsTo later vars' := by
  obtain ⟨added, hbindings, hnodup, hadded⟩ := h
  refine ⟨added, hbindings, hnodup, fun b hb => ?_⟩
  obtain ⟨hfree, hmem, hterm⟩ := hadded b hb
  exact ⟨hfree, hvars hmem, fun w hw => hvars (hterm w hw)⟩

/-- What is bound stays bound to the same term. -/
theorem find?_eq_some (h : σ.GrowsTo later vars) {v : ScopedVar} {t : ScopedTerm}
    (hv : σ.find? v = some t) : later.find? v = some t := by
  obtain ⟨added, hbindings, -, hadded⟩ := h
  have hnew : added.lookup v = none := by
    rw [Option.eq_none_iff_forall_ne_some]
    intro u hu
    obtain ⟨hfree, -⟩ := hadded _ (mem_of_lookup_eq_some hu)
    rw [hv] at hfree
    cases hfree
  rw [find?, hbindings, List.lookup_append, hnew, Option.none_or]
  exact hv

/-- A binding that was not there binds a variable of `vars` that was not bound, to a term over `vars`. -/
theorem of_find?_eq_some (h : σ.GrowsTo later vars) {v : ScopedVar} {t : ScopedTerm}
    (hv : later.find? v = some t) :
    σ.find? v = some t ∨
      σ.find? v = none ∧ v ∈ vars ∧ ∀ w ∈ t.varOccurrences, w ∈ vars := by
  obtain ⟨added, hbindings, -, hadded⟩ := h
  rw [find?, hbindings, List.lookup_append, Option.or_eq_some_iff] at hv
  rcases hv with hv | ⟨-, hv⟩
  · exact Or.inr (hadded _ (mem_of_lookup_eq_some hv))
  · exact Or.inl hv

/-- Growing twice is growing. -/
theorem trans {between : Substitution} (h : σ.GrowsTo between vars)
    (h' : between.GrowsTo later vars) : σ.GrowsTo later vars := by
  have hkept : ∀ v, between.find? v = none → σ.find? v = none := by
    intro v hv
    by_contra hbound
    obtain ⟨t, ht⟩ := Option.ne_none_iff_exists'.1 hbound
    rw [h.find?_eq_some ht] at hv
    cases hv
  obtain ⟨added, hbindings, hnodup, hadded⟩ := h
  obtain ⟨added', hbindings', hnodup', hadded'⟩ := h'
  refine ⟨added' ++ added, by rw [hbindings', hbindings, List.append_assoc], ?_, ?_⟩
  · rw [List.map_append, List.nodup_append']
    refine ⟨hnodup', hnodup, ?_⟩
    -- what is bound second was not bound first
    intro v hv' hv
    obtain ⟨b, hb, rfl⟩ := List.mem_map.1 hv'
    refine find?_eq_none_iff.1 (hadded' b hb).1 ?_
    rw [hbindings, List.map_append]
    exact List.mem_append_left _ hv
  · intro b hb
    rcases List.mem_append.1 hb with hb | hb
    · obtain ⟨hfree, hrest⟩ := hadded' b hb
      exact ⟨hkept _ hfree, hrest⟩
    · exact hadded b hb

/-- Binding a variable that is not bound. -/
theorem insert {v : ScopedVar} {u : ScopedTerm} (hfree : σ.find? v = none) (hv : v ∈ vars)
    (hu : ∀ w ∈ u.varOccurrences, w ∈ vars) : σ.GrowsTo (σ.insert v u) vars := by
  have hothers : σ.bindings.filter (fun b => b.1 ≠ v) = σ.bindings := by
    refine List.filter_eq_self.2 fun b hb => decide_eq_true ?_
    rintro rfl
    exact find?_eq_none_iff.1 hfree (List.mem_map_of_mem hb)
  refine ⟨[(v, u)], ?_, by simp, ?_⟩
  · rw [Substitution.insert, hothers]
    rfl
  · intro b hb
    cases List.mem_singleton.1 hb
    exact ⟨hfree, hv, hu⟩

/-- Applying a substitution before a later one changes nothing. -/
theorem apply_apply (h : σ.GrowsTo later vars) (hσ : σ.Acyclic) (hlater : later.Acyclic)
    (t : ScopedTerm) : later.apply (σ.apply t) = later.apply t := by
  have hsolves : Solves (fun v => later.apply (.var v)) σ :=
    fun v u hv => hlater.apply_var_of_bound (h.find?_eq_some hv)
  exact hsolves.apply_bind hσ t

/-- Applying a later substitution to a term over `vars` gives a term over `vars`. -/
theorem mem_of_mem_apply (h : σ.GrowsTo later vars) (hlater : later.Acyclic)
    (hfree : ∀ w ∈ vars, σ.find? w = none) {t : ScopedTerm} (ht : ∀ w ∈ t.varOccurrences, w ∈ vars) :
    ∀ w ∈ (later.apply t).varOccurrences, w ∈ vars := by
  induction t using hlater.chainInduction with
  | free v hv => rwa [apply_var_of_free hv]
  | bound v t hv ih =>
    rw [hlater.apply_var_of_bound hv]
    refine ih ?_
    have hbound : σ.find? v = none := hfree v (ht v List.mem_cons_self)
    rcases h.of_find?_eq_some hv with hold | ⟨-, -, hnew⟩
    · rw [hbound] at hold
      cases hold
    · exact hnew
  | const c => exact ht
  | app f args ih =>
    intro w hw
    rw [apply_app, TermOver.mem_varOccurrences_app] at hw
    obtain ⟨b, hb, hwb⟩ := hw
    obtain ⟨a, ha, rfl⟩ := List.mem_map.1 hb
    exact ih a ha (fun x hx => ht x (TermOver.mem_varOccurrences_app.2 ⟨a, ha, hx⟩)) w hwb

end GrowsTo

/-! ## Terms without bound variables -/

/-- The variables of both terms are among `vars`, and none of these is bound. -/
structure FreeOver (σ : Substitution) (vars : Finset ScopedVar) (s t : ScopedTerm) : Prop where
  /-- The variables of the terms are listed. -/
  mem : ∀ w ∈ s.varOccurrences ++ t.varOccurrences, w ∈ vars
  /-- What is listed is not bound. -/
  free : ∀ w ∈ vars, σ.find? w = none

namespace FreeOver

variable {σ : Substitution} {vars : Finset ScopedVar} {s t : ScopedTerm}

theorem left (h : σ.FreeOver vars s t) : ∀ w ∈ s.varOccurrences, w ∈ vars :=
  fun w hw => h.mem w (List.mem_append_left _ hw)

theorem right (h : σ.FreeOver vars s t) : ∀ w ∈ t.varOccurrences, w ∈ vars :=
  fun w hw => h.mem w (List.mem_append_right _ hw)

theorem apply_left (h : σ.FreeOver vars s t) : σ.apply s = s :=
  apply_eq_self fun w hw => h.free w (h.left w hw)

theorem apply_right (h : σ.FreeOver vars s t) : σ.apply t = t :=
  apply_eq_self fun w hw => h.free w (h.right w hw)

/-- A disagreement that a binding would remove is among the variables of the terms. -/
theorem of_binding (h : σ.FreeOver vars s t) {v : ScopedVar} {u : ScopedTerm}
    (hfound : disagreement s t = some (.binding v u)) :
    v ∈ vars ∧ ∀ w ∈ u.varOccurrences, w ∈ vars := by
  have hreport := disagreement_reports s t
  rw [hfound] at hreport
  cases hreport with
  | binding _ hv hu _ => exact ⟨h.mem v hv, fun w hw => h.mem w (hu w hw)⟩

/-- Once a variable is bound and replaced in both terms, it is not among their variables any more. -/
theorem replace (h : σ.FreeOver vars s t) {v : ScopedVar} {u : ScopedTerm}
    (hu : ∀ w ∈ u.varOccurrences, w ∈ vars) (hvu : v ∉ u.varOccurrences) :
    (σ.insert v u).FreeOver (vars.erase v) (TermOver.replace v u s) (TermOver.replace v u t) := by
  have hmem : ∀ x : ScopedTerm, (∀ w ∈ x.varOccurrences, w ∈ vars) →
      ∀ w ∈ (TermOver.replace v u x).varOccurrences, w ∈ vars.erase v := by
    intro x hx w hw
    rw [Finset.mem_erase]
    rcases mem_varOccurrences_replace hw with hw | ⟨hne, hw⟩
    · exact ⟨fun hwv => hvu (hwv ▸ hw), hu w hw⟩
    · exact ⟨hne, hx w hw⟩
  refine ⟨fun w hw => ?_, fun w hw => ?_⟩
  · rcases List.mem_append.1 hw with hw | hw
    · exact hmem s h.left w hw
    · exact hmem t h.right w hw
  · obtain ⟨hne, hw⟩ := Finset.mem_erase.1 hw
    rw [find?_insert, if_neg hne]
    exact h.free w hw

end FreeOver

end Substitution

/-! ## Removals -/

/-- The disagreements of two terms are removed from left to right, under a growing substitution, until
there is none left or one cannot be removed. -/
inductive Removes : Substitution → ScopedTerm → ScopedTerm → UnifyAttempt → Prop where
  /-- There is no disagreement. -/
  | same {σ : Substitution} {s t : ScopedTerm} (hfound : disagreement s t = none) :
      Removes σ s t ⟨σ, none⟩
  /-- Two symbols clash. -/
  | clash {σ : Substitution} {s t : ScopedTerm} (hfound : disagreement s t = some .clash) :
      Removes σ s t ⟨σ, some .clash⟩
  /-- A variable meets a larger term that contains it. -/
  | occurs {σ : Substitution} {s t u : ScopedTerm} {v : ScopedVar}
      (hfound : disagreement s t = some (.binding v u)) (hvu : v ∈ u.varOccurrences) :
      Removes σ s t ⟨σ, some .occursCheck⟩
  /-- A variable is bound and replaced in both terms. -/
  | bind {σ : Substitution} {s t u : ScopedTerm} {v : ScopedVar} {attempt : UnifyAttempt}
      (hfound : disagreement s t = some (.binding v u)) (hvu : v ∉ u.varOccurrences)
      (hrest : Removes (σ.insert v u) (TermOver.replace v u s) (TermOver.replace v u t) attempt) :
      Removes σ s t attempt

/-- The rounds of unification are enough when there is one for each variable. -/
theorem unifyApplied_removes {rounds : Nat} {σ : Substitution} {vars : Finset ScopedVar}
    {s t : ScopedTerm} (h : σ.FreeOver vars s t) (hrounds : vars.card ≤ rounds) :
    Removes σ s t (unifyApplied rounds s t σ) := by
  induction rounds generalizing σ vars s t with
  | zero =>
    rw [unifyApplied]
    cases hfound : disagreement s t with
    | none => exact .same hfound
    | some found =>
      cases found with
      | clash => exact .clash hfound
      | binding v u =>
        -- no variable is left that could be bound
        have hv := (h.of_binding hfound).1
        rw [Finset.card_eq_zero.1 (Nat.le_zero.1 hrounds)] at hv
        exact absurd hv (Finset.notMem_empty v)
  | succ rounds ih =>
    rw [unifyApplied]
    cases hfound : disagreement s t with
    | none => exact .same hfound
    | some found =>
      cases found with
      | clash => exact .clash hfound
      | binding v u =>
        obtain ⟨hv, hu⟩ := h.of_binding hfound
        have hoccurs : σ.occurs v u = true ↔ v ∈ u.varOccurrences :=
          occurs_iff fun w hw => h.free w (hu w hw)
        dsimp only
        split
        · next hyes => exact .occurs hfound (hoccurs.1 hyes)
        · next hno =>
          have hvu : v ∉ u.varOccurrences := fun hvu => hno (hoccurs.2 hvu)
          refine .bind hfound hvu (ih (h.replace hu hvu) ?_)
          rw [Finset.card_erase_of_mem hv]
          omega

namespace Removes

variable {σ : Substitution} {vars : Finset ScopedVar} {s t : ScopedTerm} {attempt : UnifyAttempt}

/-- There is one way to remove disagreements. -/
theorem unique {other : UnifyAttempt} (h : Removes σ s t attempt) (h' : Removes σ s t other) :
    attempt = other := by
  -- the leftmost disagreement decides which rule applies
  induction h with
  | same hfound =>
    cases h' with
    | same => rfl
    | _ => simp_all
  | clash hfound =>
    cases h' with
    | clash => rfl
    | _ => simp_all
  | occurs hfound hvu =>
    cases h' with
    | occurs => rfl
    | _ => simp_all
  | bind hfound hvu _ ih =>
    cases h' with
    | bind hfound' _ hrest' =>
      rw [hfound] at hfound'
      cases hfound'
      exact ih hrest'
    | _ => simp_all

/-- A removal binds variables of the two terms to terms over their variables. -/
theorem growsTo (h : Removes σ s t attempt) (hfree : σ.FreeOver vars s t) :
    σ.GrowsTo attempt.substitution vars := by
  induction h generalizing vars with
  | same => exact .refl _ _
  | clash => exact .refl _ _
  | occurs => exact .refl _ _
  | @bind σ s t u v attempt hfound hvu _ ih =>
    obtain ⟨hv, hu⟩ := hfree.of_binding hfound
    have hstep : σ.GrowsTo (σ.insert v u) vars := .insert (hfree.free v hv) hv hu
    exact hstep.trans ((ih (hfree.replace hu hvu)).mono (Finset.erase_subset v vars))

/-- A removal makes no chain of bindings cyclic. -/
theorem acyclic (h : Removes σ s t attempt) (hσ : σ.Acyclic) (hfree : σ.FreeOver vars s t) :
    attempt.substitution.Acyclic := by
  induction h generalizing vars with
  | same => exact hσ
  | clash => exact hσ
  | occurs => exact hσ
  | bind hfound hvu _ ih =>
    obtain ⟨-, hu⟩ := hfree.of_binding hfound
    exact ih (hσ.insert (fun w hw => hfree.free w (hu w hw)) hvu) (hfree.replace hu hvu)

end Removes

/-! ## Argument lists -/

theorem disagreement_self (t : ScopedTerm) : disagreement t t = none := by
  have hreport := disagreement_reports t t
  cases hfound : disagreement t t with
  | none => rfl
  | some found =>
    rw [hfound] at hreport
    cases hreport with
    | clash h => exact absurd rfl (h .var)
    | binding hne _ _ h =>
      have hvar := h .var rfl
      rw [TermOver.bind_id] at hvar
      exact absurd hvar.symm hne

/-- Equal first arguments do not disagree. -/
theorem disagreement_cons_self (f : Nat) (a : ScopedTerm) (ss ts : List ScopedTerm) :
    disagreement (.app f (a :: ss)) (.app f (a :: ts)) = disagreement (.app f ss) (.app f ts) := by
  simp [disagreement, disagreementList, disagreement_self]

/-- The disagreement of the first arguments is that of the lists. -/
theorem disagreement_cons {f : Nat} {s t : ScopedTerm} {ss ts : List ScopedTerm}
    (hlength : ss.length = ts.length) {found : Disagreement} (hfound : disagreement s t = some found) :
    disagreement (.app f (s :: ss)) (.app f (t :: ts)) = some found := by
  simp [disagreement, disagreementList, hlength, hfound]

theorem replace_app (v : ScopedVar) (u : ScopedTerm) (f : Nat) (args : List ScopedTerm) :
    TermOver.replace v u (.app f args) = .app f (args.map (TermOver.replace v u)) :=
  TermOver.bind_app _ f args

/-- Arguments of terms without bound variables have none. -/
theorem Substitution.FreeOver.of_mem {σ : Substitution} {vars : Finset ScopedVar} {f g : Nat}
    {ss ts : List ScopedTerm} (h : σ.FreeOver vars (.app f ss) (.app g ts)) {s t : ScopedTerm}
    (hs : s ∈ ss) (ht : t ∈ ts) : σ.FreeOver vars s t := by
  refine ⟨fun w hw => ?_, h.free⟩
  rcases List.mem_append.1 hw with hw | hw
  · exact h.left w (TermOver.mem_varOccurrences_app.2 ⟨s, hs, hw⟩)
  · exact h.right w (TermOver.mem_varOccurrences_app.2 ⟨t, ht, hw⟩)

/-- Replacing a variable by what it is bound to does not change what the substitution gives. -/
theorem Substitution.Acyclic.apply_replace {σ : Substitution} (hσ : σ.Acyclic) {v : ScopedVar}
    {u : ScopedTerm} (hv : σ.find? v = some u) (t : ScopedTerm) :
    σ.apply (TermOver.replace v u t) = σ.apply t :=
  bind_replace (θ := fun w => σ.apply (.var w)) (hσ.apply_var_of_bound hv) t

namespace Removes

variable {σ later : Substitution} {vars : Finset ScopedVar} {s t : ScopedTerm} {f : Nat}
  {ss ts : List ScopedTerm} {attempt : UnifyAttempt}

/-- Equal first arguments do not matter. -/
theorem cons_self (h : Removes σ (.app f ss) (.app f ts) attempt) (a : ScopedTerm) :
    Removes σ (.app f (a :: ss)) (.app f (a :: ts)) attempt := by
  generalize hs : TermOver.app f ss = s at h
  generalize ht : TermOver.app f ts = t at h
  -- the same rules apply with one more argument, which changes with every binding but stays equal
  induction h generalizing a ss ts with
  | same hfound =>
    subst hs ht
    exact .same (by rw [disagreement_cons_self, hfound])
  | clash hfound =>
    subst hs ht
    exact .clash (by rw [disagreement_cons_self, hfound])
  | occurs hfound hvu =>
    subst hs ht
    exact .occurs (by rw [disagreement_cons_self, hfound]) hvu
  | @bind _ _ _ u v _ hfound hvu _ ih =>
    subst hs ht
    refine .bind (by rw [disagreement_cons_self, hfound]) hvu ?_
    rw [replace_app, replace_app, List.map_cons, List.map_cons]
    exact ih _ (replace_app v u f ss).symm (replace_app v u f ts).symm

/-- A failure at the first arguments is a failure of the lists. -/
theorem cons_failed {failure : UnificationFailure} (h : Removes σ s t ⟨later, some failure⟩)
    (hlength : ss.length = ts.length) :
    Removes σ (.app f (s :: ss)) (.app f (t :: ts)) ⟨later, some failure⟩ := by
  generalize hattempt : UnifyAttempt.mk later (some failure) = attempt at h ⊢
  induction h generalizing ss ts with
  | same => cases hattempt
  | clash hfound => exact .clash (disagreement_cons hlength hfound)
  | occurs hfound hvu => exact .occurs (disagreement_cons hlength hfound) hvu
  | bind hfound hvu _ ih =>
    refine .bind (disagreement_cons hlength hfound) hvu ?_
    rw [replace_app, replace_app, List.map_cons, List.map_cons]
    exact ih (by simpa using hlength) hattempt

/-- Once the first arguments are equal, the disagreements of the others are removed under the bindings that
were made. -/
theorem cons (h : Removes σ s t ⟨later, none⟩) (hσ : σ.Acyclic)
    (hfree : σ.FreeOver vars (.app f (s :: ss)) (.app f (t :: ts))) (hlength : ss.length = ts.length)
    (hrest : Removes later (.app f (ss.map later.apply)) (.app f (ts.map later.apply)) attempt) :
    Removes σ (.app f (s :: ss)) (.app f (t :: ts)) attempt := by
  generalize hfirst : UnifyAttempt.mk later none = first at h
  -- along the removal for the first arguments the others are replaced as well, as the later substitution does
  induction h generalizing vars ss ts with
  | @same σ s t hfound =>
    cases hfirst
    cases eq_of_disagreement_eq_none hfound
    have hsame : ∀ a ∈ ss ++ ts, later.apply a = a := by
      intro a ha
      rcases List.mem_append.1 ha with ha | ha
      · exact (hfree.of_mem (List.mem_cons_of_mem s ha) List.mem_cons_self).apply_left
      · exact (hfree.of_mem List.mem_cons_self (List.mem_cons_of_mem s ha)).apply_right
    rw [List.map_congr_left fun a ha => hsame a (List.mem_append_left _ ha), List.map_id',
      List.map_congr_left fun a ha => hsame a (List.mem_append_right _ ha), List.map_id'] at hrest
    exact hrest.cons_self s
  | clash => cases hfirst
  | occurs => cases hfirst
  | @bind σ s t u v first hfound hvu hmore ih =>
    subst hfirst
    have hheads : σ.FreeOver vars s t := hfree.of_mem List.mem_cons_self List.mem_cons_self
    obtain ⟨hv, hu⟩ := hheads.of_binding hfound
    have hinsert : (σ.insert v u).Acyclic := hσ.insert (fun w hw => hheads.free w (hu w hw)) hvu
    have hnext := hheads.replace hu hvu
    have hlater : later.Acyclic := hmore.acyclic hinsert hnext
    have hbound : later.find? v = some u := by
      refine (hmore.growsTo hnext).find?_eq_some ?_
      rw [find?_insert, if_pos rfl]
    have hreplaced : ∀ args : List ScopedTerm,
        (args.map (TermOver.replace v u)).map later.apply = args.map later.apply := by
      intro args
      rw [List.map_map]
      exact List.map_congr_left fun a _ => hlater.apply_replace hbound a
    have hfree' := hfree.replace hu hvu
    rw [replace_app, replace_app, List.map_cons, List.map_cons] at hfree'
    refine .bind (disagreement_cons hlength hfound) hvu ?_
    rw [replace_app, replace_app, List.map_cons, List.map_cons]
    refine ih hinsert hfree' (by simpa using hlength) ?_ rfl
    rwa [hreplaced, hreplaced]

end Removes

/-! ## Unification -/

/-- The variables that a substitution leaves in two terms. -/
def Substitution.remaining (σ : Substitution) (s t : ScopedTerm) : Finset ScopedVar :=
  ((σ.apply s).varOccurrences ++ (σ.apply t).varOccurrences).toFinset

theorem Substitution.Acyclic.freeOver_remaining {σ : Substitution} (hσ : σ.Acyclic)
    (s t : ScopedTerm) : σ.FreeOver (σ.remaining s t) (σ.apply s) (σ.apply t) := by
  refine ⟨fun w hw => List.mem_toFinset.2 hw, fun w hw => ?_⟩
  rcases List.mem_append.1 (List.mem_toFinset.1 hw) with hw | hw <;>
    exact hσ.find?_eq_none_of_mem_apply hw

theorem applyAndUnify_removes {σ : Substitution} (hσ : σ.Acyclic) (s t : ScopedTerm) :
    Removes σ (σ.apply s) (σ.apply t) (applyAndUnify σ s t) := by
  refine unifyApplied_removes (hσ.freeOver_remaining s t) ?_
  rw [← List.length_append]
  exact List.toFinset_card_le _

/-- Unifying two argument lists removes the disagreements of the lists, if unifying members does. -/
theorem unifyArgs_removes {ss ts : List ScopedTerm} (hlength : ss.length = ts.length)
    (h : ∀ s ∈ ss, ∀ (t : ScopedTerm) (σ : Substitution), σ.Acyclic →
      Removes σ (σ.apply s) (σ.apply t) (unifyFrom σ s t))
    {σ : Substitution} (hσ : σ.Acyclic) (f : Nat) :
    Removes σ (σ.apply (.app f ss)) (σ.apply (.app f ts)) (unifyArgs σ ss ts) := by
  induction ss generalizing ts σ with
  | nil =>
    cases ts with
    | nil => exact .same (disagreement_self _)
    | cons t ts => cases hlength
  | cons s ss ih =>
    cases ts with
    | nil => cases hlength
    | cons t ts =>
      have hfirst := h s List.mem_cons_self t σ hσ
      have hfree := hσ.freeOver_remaining s t
      have hfreeAll := hσ.freeOver_remaining (.app f (s :: ss)) (.app f (t :: ts))
      rw [apply_app, apply_app, List.map_cons, List.map_cons] at hfreeAll ⊢
      have hlengths : (ss.map σ.apply).length = (ts.map σ.apply).length := by
        simpa using hlength
      rw [unifyArgs]
      split
      · next later hattempt =>
        rw [hattempt] at hfirst
        have hlater : later.Acyclic := hfirst.acyclic hσ hfree
        have hrest := ih (Nat.succ.inj hlength)
          (fun s' hs' => h s' (List.mem_cons_of_mem s hs')) hlater
        refine hfirst.cons hσ hfreeAll hlengths ?_
        -- the rest was under the first substitution already
        have happly : ∀ args : List ScopedTerm,
            (args.map σ.apply).map later.apply = args.map later.apply := by
          intro args
          rw [List.map_map]
          exact List.map_congr_left fun a _ => (hfirst.growsTo hfree).apply_apply hσ hlater a
        rwa [happly, happly, ← apply_app, ← apply_app]
      · next later failure hattempt =>
        rw [hattempt] at hfirst
        exact hfirst.cons_failed hlengths

/-- Unification removes the disagreements of the two terms under the substitution. -/
theorem unifyFrom_removes (s t : ScopedTerm) {σ : Substitution} (hσ : σ.Acyclic) :
    Removes σ (σ.apply s) (σ.apply t) (unifyFrom σ s t) := by
  induction s using TermOver.induction generalizing t σ with
  | var v =>
    rw [unifyFrom]
    exact applyAndUnify_removes hσ _ _
  | const c =>
    rw [unifyFrom]
    exact applyAndUnify_removes hσ _ _
  | app f ss ih =>
    cases t with
    | var w =>
      rw [unifyFrom]
      exact applyAndUnify_removes hσ _ _
    | const d =>
      rw [unifyFrom]
      exact applyAndUnify_removes hσ _ _
    | app g ts =>
      rw [unifyFrom]
      split
      · next h =>
        obtain ⟨rfl, hlength⟩ := h
        exact unifyArgs_removes hlength (fun s hs t _ => ih s hs t) hσ f
      · next h =>
        refine .clash ?_
        rw [apply_app, apply_app, disagreement, if_neg (by simpa using h)]

end GivenClause
