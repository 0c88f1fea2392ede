import Mathlib.Data.List.Forall2
import GivenClause.Proofs.Retrieval.KeySearch
import GivenClause.Proofs.Retrieval.TreeRuns

/-! # Searching by a term

What a search in a discrimination tree finds, told by the terms under which values were stored. Variable
occurrences are looked at one by one: a stored term is found as a generalization of the query when the
query arises from it by replacing every variable occurrence, each by a term of its own.

* `TreeCall.recordedAfter` keeps the terms that are stored along a run;
* `DiscriminationTree.search_performAll_perm` says what every kind of search finds;
* `Term.Outlines` is the replacement of variable occurrences one by one;
* `DiscriminationTree.generalizations_exact` for generalizations and `DiscriminationTree.instances_exact` for
  instances, which are the same with the two sides exchanged (`Matching.agrees_exchange`). -/

namespace GivenClause

variable {α : Type}

/-! ## Stored terms -/

/-- Taking out the first element with a given image takes that image out. -/
theorem map_eraseP_eq {β γ : Type} [DecidableEq γ] (f : β → γ) (c : γ) (bs : List β) :
    (bs.eraseP fun b => f b = c).map f = (bs.map f).erase c := by
  induction bs with
  | nil => rfl
  | cons b bs ih =>
    by_cases h : f b = c
    · simp [h]
    · simp [h, ih]

namespace TreeCall

open DiscriminationTree (entryOf)

variable [DecidableEq α]

/-- What a call makes of the terms and values that are stored. A removal takes out an entry whose term has
the key sequence of the given one. -/
def record (stored : List (Term × α)) : TreeCall α → List (Term × α)
  | .insert t value => (t, value) :: stored
  | .remove t value => stored.eraseP fun e => entryOf e = (t.storedKeys, value)

/-- The terms that calls leave stored, each with its value. -/
def recordedAfter (calls : List (TreeCall α)) : List (Term × α) :=
  calls.foldl record []

theorem coe_map_record (stored : List (Term × α)) (call : TreeCall α) :
    ((call.record stored).map entryOf : Multiset (List FlatKey × α)) =
      call.change (stored.map entryOf) := by
  cases call with
  | insert t value => rfl
  | remove t value => rw [record, change, Multiset.coe_erase, map_eraseP_eq]

theorem coe_map_foldl_record (calls : List (TreeCall α)) (stored : List (Term × α)) :
    ((calls.foldl record stored).map entryOf : Multiset (List FlatKey × α)) =
      calls.foldl change (stored.map entryOf) := by
  induction calls generalizing stored with
  | nil => rfl
  | cons call calls ih => rw [List.foldl_cons, List.foldl_cons, ih, coe_map_record]

/-- The terms that are stored have the key sequences that are stored. -/
theorem coe_map_recordedAfter (calls : List (TreeCall α)) :
    ((recordedAfter calls).map entryOf : Multiset (List FlatKey × α)) = storedAfter calls :=
  coe_map_foldl_record calls []

/-- What is recorded at the end was there before or was inserted. -/
theorem mem_foldl_record {calls : List (TreeCall α)} {stored : List (Term × α)} {e : Term × α}
    (h : e ∈ calls.foldl record stored) : e ∈ stored ∨ .insert e.1 e.2 ∈ calls := by
  induction calls generalizing stored with
  | nil => exact Or.inl h
  | cons call calls ih =>
    rcases ih h with hrecord | hcalls
    · cases call with
      | insert t value =>
        rcases List.mem_cons.1 hrecord with rfl | hstored
        · exact Or.inr List.mem_cons_self
        · exact Or.inl hstored
      | remove t value => exact Or.inl (List.mem_of_mem_eraseP hrecord)
    · exact Or.inr (List.mem_cons_of_mem call hcalls)

/-- What is stored was inserted. -/
theorem insert_mem_of_mem_recordedAfter {calls : List (TreeCall α)} {e : Term × α}
    (h : e ∈ recordedAfter calls) : .insert e.1 e.2 ∈ calls :=
  (mem_foldl_record h).resolve_left List.not_mem_nil

end TreeCall

/-! ## Searches -/

namespace DiscriminationTree

variable [DecidableEq α]

/-- A search finds the values whose stored term agrees with the query, each as often as it is stored. -/
theorem search_performAll_perm (m : Matching) {calls : List (TreeCall α)}
    (hcalls : ∀ t value, .insert t value ∈ calls → t.ArityExact) {q : Term} (hq : q.ArityExact) :
    ((empty.performAll calls).root.search m 0 (Term.keysOnto m.queryVar q [])).Perm
      (((TreeCall.recordedAfter calls).filter fun e => m.agrees e.1 q).map Prod.snd) := by
  have hstores : (empty.performAll calls).Stores (TreeCall.storedAfter calls) :=
    Stores.empty.performAll calls
  have hcontents : (empty.performAll calls).contents.Perm
      ((TreeCall.recordedAfter calls).map entryOf) := by
    rw [← Multiset.coe_eq_coe, hstores.contents_eq, TreeCall.coe_map_recordedAfter]
  refine (hstores.sound.wellShaped.search_perm m 0 _).trans
    ((valuesWhere_perm hcontents).trans (List.Perm.of_eq ?_))
  rw [valuesWhere, List.filter_map, List.map_map]
  -- stored terms meet the query as key sequences exactly when they agree with it
  refine congrArg (List.map Prod.snd) (List.filter_congr fun e he => ?_)
  exact Matching.accepts_storedKeys (hcalls _ _ (TreeCall.insert_mem_of_mem_recordedAfter he)) hq

end DiscriminationTree

/-! ## Replacing variable occurrences one by one -/

/-- A term without the names of its variables. -/
def TermOver.forgetVars {ν φ : Type} (t : TermOver ν φ) : TermOver Unit φ :=
  t.bind fun _ => .var ()

@[simp] theorem TermOver.forgetVars_var {ν φ : Type} (v : ν) :
    (.var v : TermOver ν φ).forgetVars = .var () := rfl

@[simp] theorem TermOver.forgetVars_const {ν φ : Type} (c : Nat) :
    (.const c : TermOver ν φ).forgetVars = .const c := rfl

@[simp] theorem TermOver.forgetVars_app {ν φ : Type} (f : φ) (args : List (TermOver ν φ)) :
    (TermOver.app f args).forgetVars = .app f (args.map forgetVars) :=
  TermOver.bind_app _ f args

namespace Term

/-- The term `u` arises from `t` by replacing every variable occurrence by a term of its own: occurrences
are marked with terms, those of one variable not necessarily with the same, and the marks are put in. -/
def Outlines (t u : Term) : Prop :=
  ∃ marked : TermOver Term FunctionSymbol, marked.forgetVars = t.forgetVars ∧ marked.bind id = u

/-- Replacing variables is a special case. -/
theorem outlines_bind (t : Term) (θ : Nat → Term) : t.Outlines (t.bind θ) := by
  refine ⟨t.bind fun x => .var (θ x), ?_, ?_⟩
  · rw [TermOver.forgetVars, TermOver.bind_bind]
    rfl
  · rw [TermOver.bind_bind]
    rfl

theorem outlines_var (x : Nat) (u : Term) : Outlines (.var x) u :=
  ⟨.var u, rfl, rfl⟩

theorem outlines_const {c : Nat} {u : Term} : Outlines (.const c) u ↔ u = .const c := by
  constructor
  · rintro ⟨marked, hmarked, rfl⟩
    cases marked with
    | var t => cases hmarked
    | const d => simpa using hmarked
    | app f args => simp at hmarked
  · rintro rfl
    exact ⟨.const c, rfl, rfl⟩

/-- Argument lists are marked member by member. -/
theorem forall₂_outlines_iff {ts us : List Term} :
    List.Forall₂ Outlines ts us ↔ ∃ marked : List (TermOver Term FunctionSymbol),
      marked.map TermOver.forgetVars = ts.map TermOver.forgetVars ∧
        marked.map (TermOver.bind id) = us := by
  constructor
  · intro h
    induction h with
    | nil => exact ⟨[], rfl, rfl⟩
    | cons hfirst _ ih =>
      obtain ⟨mark, hmark, rfl⟩ := hfirst
      obtain ⟨marked, hmarked, rfl⟩ := ih
      exact ⟨mark :: marked, by rw [List.map_cons, List.map_cons, hmark, hmarked], rfl⟩
  · rintro ⟨marked, hmarked, rfl⟩
    induction marked generalizing ts with
    | nil =>
      rw [List.map_nil, eq_comm, List.map_eq_nil_iff] at hmarked
      rw [hmarked]
      exact .nil
    | cons mark marked ih =>
      obtain ⟨t, ts, rfl, hmark, hrest⟩ := List.map_eq_cons_iff.1 hmarked.symm
      exact .cons ⟨mark, hmark.symm, rfl⟩ (ih hrest.symm)

theorem outlines_app {f : FunctionSymbol} {ts : List Term} {u : Term} :
    Outlines (.app f ts) u ↔ ∃ us, u = .app f us ∧ List.Forall₂ Outlines ts us := by
  simp only [forall₂_outlines_iff]
  constructor
  · rintro ⟨marked, hmarked, rfl⟩
    cases marked with
    | var t => simp at hmarked
    | const d => simp at hmarked
    | app g marks =>
      simp only [TermOver.forgetVars_app, TermOver.app.injEq] at hmarked
      obtain ⟨rfl, hmarks⟩ := hmarked
      exact ⟨_, TermOver.bind_app _ _ _, marks, hmarks, rfl⟩
  · rintro ⟨_, rfl, marks, hmarks, rfl⟩
    refine ⟨.app f marks, ?_, TermOver.bind_app _ _ _⟩
    rw [TermOver.forgetVars_app, TermOver.forgetVars_app, hmarks]

end Term

/-! ## Generalizations -/

namespace Matching

/-- Argument lists agree when their members do, whatever that means for these. -/
theorem agreesList_iff {m : Matching} {R : Term → Term → Prop} {ss ts : List Term}
    (h : ∀ s ∈ ss, ∀ t, m.agrees s t = true ↔ R s t) :
    m.agreesList ss ts = true ↔ List.Forall₂ R ss ts := by
  induction ss generalizing ts with
  | nil => cases ts <;> simp [agreesList]
  | cons s ss ih =>
    cases ts with
    | nil => simp [agreesList]
    | cons t ts =>
      rw [agreesList, Bool.and_eq_true, List.forall₂_cons, h s List.mem_cons_self,
        ih fun u hu => h u (List.mem_cons_of_mem s hu)]

/-- When only stored variables stand for any term, a term agrees with what it is an outline of. -/
theorem agrees_iff_outlines {t u : Term} : agrees ⟨true, false⟩ t u = true ↔ t.Outlines u := by
  induction t using TermOver.induction generalizing u with
  | var x =>
    refine iff_of_true ?_ (Term.outlines_var x u)
    cases u <;> rfl
  | const c =>
    rw [Term.outlines_const]
    cases u <;> simp [agrees, eq_comm]
  | app f args ih =>
    rw [Term.outlines_app]
    cases u with
    | var y => simp [agrees]
    | const d => simp [agrees]
    | app g us =>
      rw [agrees, Bool.and_eq_true, decide_eq_true_eq, agreesList_iff fun a ha _ => ih a ha]
      constructor
      · rintro ⟨rfl, hargs⟩
        exact ⟨us, rfl, hargs⟩
      · rintro ⟨_, heq, hargs⟩
        cases heq
        exact ⟨rfl, hargs⟩

end Matching

instance : DecidableRel Term.Outlines := fun _ _ => decidable_of_iff _ Matching.agrees_iff_outlines

namespace DiscriminationTree

variable [DecidableEq α]

/-- Generalizations are found exactly, up to repeated variables. After any calls whose stored terms count
their arguments exactly, and for any such query:

* the values found are those whose stored term becomes the query when each variable occurrence is replaced
  by a term of its own, each value as often as it is stored with such a term;
* so a value is found whenever the query is an instance of its stored term. -/
theorem generalizations_exact {calls : List (TreeCall α)}
    (hcalls : ∀ t value, .insert t value ∈ calls → t.ArityExact) {q : Term} (hq : q.ArityExact) :
    ((empty.performAll calls).generalizations q).Perm
      (((TreeCall.recordedAfter calls).filter fun e => e.1.Outlines q).map Prod.snd) ∧
    ∀ e ∈ TreeCall.recordedAfter calls, (∃ θ : Nat → Term, e.1.bind θ = q) →
      e.2 ∈ (empty.performAll calls).generalizations q := by
  have hperm : ((empty.performAll calls).generalizations q).Perm
      (((TreeCall.recordedAfter calls).filter fun e => e.1.Outlines q).map Prod.snd) := by
    refine (search_performAll_perm ⟨true, false⟩ hcalls hq).trans (List.Perm.of_eq ?_)
    refine congrArg (List.map Prod.snd) (List.filter_congr fun e _ => ?_)
    rw [Bool.eq_iff_iff, Matching.agrees_iff_outlines, decide_eq_true_eq]
  refine ⟨hperm, ?_⟩
  rintro e he ⟨θ, rfl⟩
  refine hperm.symm.subset (List.mem_map_of_mem (List.mem_filter.2 ⟨he, ?_⟩))
  exact decide_eq_true (e.1.outlines_bind θ)

/-- Stores `f(x, x)`, `f(x, a)`, twice `f(g(x), a)`, `f(a, x)` and `x`, and takes out `f(x, a)` under another
name of its variable. -/
def overlappingCalls : List (TreeCall Nat) :=
  [.insert (.app ⟨0, 2⟩ [.var 0, .var 0]) 1, .insert (.app ⟨0, 2⟩ [.var 0, .const 0]) 2,
    .insert (.app ⟨0, 2⟩ [.app ⟨1, 1⟩ [.var 0], .const 0]) 3,
    .insert (.app ⟨0, 2⟩ [.app ⟨1, 1⟩ [.var 0], .const 0]) 3,
    .insert (.app ⟨0, 2⟩ [.const 0, .var 0]) 4, .insert (.var 0) 5,
    .remove (.app ⟨0, 2⟩ [.var 7, .const 0]) 2]

/-- For the query `f(g(y), a)` both copies of `f(g(x), a)` are found and also `x`; `f(x, x)` is found
although the query is no instance of it. -/
theorem generalizations_exact_overlappingCalls :
    let q : Term := .app ⟨0, 2⟩ [.app ⟨1, 1⟩ [.var 1], .const 0]
    ((empty.performAll overlappingCalls).generalizations q).Perm [5, 3, 3, 1] ∧
      5 ∈ (empty.performAll overlappingCalls).generalizations q := by
  intro q
  have hcalls : ∀ t value, TreeCall.insert t value ∈ overlappingCalls → t.ArityExact := by
    intro t value h
    simp only [overlappingCalls, List.mem_cons, TreeCall.insert.injEq, reduceCtorEq, List.not_mem_nil,
      or_false] at h
    rcases h with ⟨rfl, -⟩ | ⟨rfl, -⟩ | ⟨rfl, -⟩ | ⟨rfl, -⟩ | ⟨rfl, -⟩ | ⟨rfl, -⟩
    all_goals decide
  obtain ⟨hperm, hinstance⟩ := generalizations_exact hcalls (q := q) (by decide)
  refine ⟨hperm.trans (List.Perm.of_eq (by decide +kernel)), hinstance (.var 0, 5) ?_ ⟨fun _ => q, rfl⟩⟩
  decide +kernel

end DiscriminationTree

/-! ## Instances -/

namespace Matching

/-- Argument lists agree with the two sides exchanged, if their members do. -/
theorem agreesList_exchange {m : Matching} {ss ts : List Term}
    (h : ∀ s ∈ ss, ∀ t, agrees ⟨m.query, m.stored⟩ t s = m.agrees s t) :
    agreesList ⟨m.query, m.stored⟩ ts ss = m.agreesList ss ts := by
  induction ss generalizing ts with
  | nil => cases ts <;> rfl
  | cons s ss ih =>
    cases ts with
    | nil => rfl
    | cons t ts =>
      rw [agreesList, agreesList, h s List.mem_cons_self,
        ih fun u hu => h u (List.mem_cons_of_mem s hu)]

/-- Which of two terms is stored does not matter if what their variables stand for is exchanged as well. -/
theorem agrees_exchange (m : Matching) (s t : Term) :
    agrees ⟨m.query, m.stored⟩ t s = m.agrees s t := by
  induction s using TermOver.induction generalizing t with
  | var x => cases t <;> simp [agrees, Bool.or_comm]
  | const c => cases t <;> simp [agrees, eq_comm]
  | app f args ih =>
    cases t with
    | var y => rfl
    | const d => rfl
    | app g ts => rw [agrees, agrees, agreesList_exchange ih, decide_eq_decide.2 eq_comm]

end Matching

namespace DiscriminationTree

variable [DecidableEq α]

/-- Instances are found exactly, up to repeated variables. After any calls whose stored terms count their
arguments exactly, and for any such query:

* the values found are those whose stored term arises from the query when each of its variable occurrences
  is replaced by a term of its own, each value as often as it is stored with such a term;
* so a value is found whenever its stored term is an instance of the query. -/
theorem instances_exact {calls : List (TreeCall α)}
    (hcalls : ∀ t value, .insert t value ∈ calls → t.ArityExact) {q : Term} (hq : q.ArityExact) :
    ((empty.performAll calls).instances q).Perm
      (((TreeCall.recordedAfter calls).filter fun e => q.Outlines e.1).map Prod.snd) ∧
    ∀ e ∈ TreeCall.recordedAfter calls, (∃ θ : Nat → Term, q.bind θ = e.1) →
      e.2 ∈ (empty.performAll calls).instances q := by
  have hperm : ((empty.performAll calls).instances q).Perm
      (((TreeCall.recordedAfter calls).filter fun e => q.Outlines e.1).map Prod.snd) := by
    refine (search_performAll_perm ⟨false, true⟩ hcalls hq).trans (List.Perm.of_eq ?_)
    refine congrArg (List.map Prod.snd) (List.filter_congr fun e _ => ?_)
    -- the query outlines the stored term where a generalization outlines the query
    rw [← Matching.agrees_exchange ⟨false, true⟩ e.1 q, Bool.eq_iff_iff, Matching.agrees_iff_outlines,
      decide_eq_true_eq]
  refine ⟨hperm, ?_⟩
  rintro e he ⟨θ, hθ⟩
  refine hperm.symm.subset (List.mem_map_of_mem (List.mem_filter.2 ⟨he, decide_eq_true ?_⟩))
  rw [← hθ]
  exact q.outlines_bind θ

/-- For the query `f(y, y)` every stored `f`-term is found, both copies of `f(g(x), a)` among them, though they
are no instances of it; the variable `x` is not found. -/
theorem instances_exact_overlappingCalls :
    let q : Term := .app ⟨0, 2⟩ [.var 1, .var 1]
    ((empty.performAll overlappingCalls).instances q).Perm [4, 3, 3, 1] ∧
      1 ∈ (empty.performAll overlappingCalls).instances q := by
  intro q
  have hcalls : ∀ t value, TreeCall.insert t value ∈ overlappingCalls → t.ArityExact := by
    intro t value h
    simp only [overlappingCalls, List.mem_cons, TreeCall.insert.injEq, reduceCtorEq, List.not_mem_nil,
      or_false] at h
    rcases h with ⟨rfl, -⟩ | ⟨rfl, -⟩ | ⟨rfl, -⟩ | ⟨rfl, -⟩ | ⟨rfl, -⟩ | ⟨rfl, -⟩
    all_goals decide
  obtain ⟨hperm, hinstance⟩ := instances_exact hcalls (q := q) (by decide)
  refine ⟨hperm.trans (List.Perm.of_eq (by decide +kernel)), ?_⟩
  exact hinstance (.app ⟨0, 2⟩ [.var 0, .var 0], 1) (by decide +kernel) ⟨fun _ => .var 0, rfl⟩

end DiscriminationTree

end GivenClause
