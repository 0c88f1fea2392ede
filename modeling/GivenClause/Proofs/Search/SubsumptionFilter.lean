import Mathlib.Algebra.BigOperators.Fin
import Mathlib.Algebra.Order.BigOperators.Group.Finset
import GivenClause.Proofs.Search.IndexRuns

/-! # The filter for subsumption

Every feature is a sum over the literals of a clause. What a literal adds does not shrink when variables are
replaced or the sides of an equation are exchanged, so a clause whose literals are sent to different literals
of another one has no larger count anywhere, and cutting counts off keeps that.

* `FeatureVector.of_eq_measures` writes the features as sums;
* `Subsumes` is subsumption with multiplicities, `Subsumes.counts_le` compares the vectors;
* `Trie.filterPaths_eq` says what a range query finds;
* `FeatureState.subsumes_filtered` for all runs. -/

namespace GivenClause

/-! ## Range queries -/

section Paths

variable {κ α : Type}

/-- Whether the keys of a path pass the tests in turn; more tests than keys do not matter. -/
def passes : List (κ → Bool) → List κ → Bool
  | _, [] => true
  | [], _ :: _ => false
  | test :: tests, key :: keys => test key && passes tests keys

/-- Keys pass tests that are made from bounds when they are related to the bounds one by one. -/
theorem passes_map {β : Type} {test : β → κ → Bool} {keys : List κ} {bounds : List β}
    (h : List.Forall₂ (fun key bound => test bound key = true) keys bounds) :
    passes (bounds.map test) keys = true := by
  induction h with
  | nil => rfl
  | cons hkey _ ih => rw [List.map_cons, passes, hkey, ih, Bool.and_true]

mutual

/-- A range query finds the values whose path passes the tests. -/
theorem Trie.filterPaths_eq : ∀ (tests : List (κ → Bool)) (trie : Trie κ α),
    trie.filterPaths tests = (trie.toList.filter fun e => passes tests e.1).map Prod.snd
  | [], .node values branches => by
    have hbelow : branches.toList.filter (fun e => passes [] e.1) = [] := by
      refine List.filter_eq_nil_iff.2 fun e he => ?_
      obtain ⟨key, -, keys, hkeys⟩ := Branches.key_mem_of_mem_toListBy he
      rw [hkeys, passes]
      exact Bool.false_ne_true
    rw [Trie.filterPaths, Trie.toList_node, List.filter_append, hbelow, List.append_nil]
    simp [List.filter_map, Function.comp_def, passes]
  | test :: tests, .node values branches => by
    rw [Trie.filterPaths, Trie.toList_node, List.filter_append, List.map_append,
      Branches.filterPaths_eq test tests branches]
    simp [List.filter_map, Function.comp_def, passes]

/-- The same for the values below branches. -/
theorem Branches.filterPaths_eq : ∀ (test : κ → Bool) (tests : List (κ → Bool)) (branches : Branches κ α),
    branches.filterPaths test tests =
      (branches.toList.filter fun e => passes (test :: tests) e.1).map Prod.snd
  | _, _, .nil => rfl
  | test, tests, .cons key child rest => by
    rw [Branches.filterPaths, Branches.toList_cons, List.filter_append, List.map_append,
      Branches.filterPaths_eq test tests rest, Trie.filterPaths_eq tests child]
    cases hkey : test key <;> simp [List.filter_map, Function.comp_def, passes, hkey]

end

end Paths

/-! ## Subsumption -/

namespace Literal

/-- The literal with the sides of an equation exchanged. -/
def exchanged : Literal → Literal
  | .equation lhs rhs positive => .equation rhs lhs positive
  | lit => lit

/-- Equal up to exchanging the sides of an equation. -/
def EqUpToSides (a b : Literal) : Prop :=
  a = b ∨ a.exchanged = b

instance : DecidableRel EqUpToSides := fun a b => inferInstanceAs (Decidable (a = b ∨ a.exchanged = b))

end Literal

/-- Subsumption with multiplicities: under one replacement of variables, different literals of the first
clause are sent to different literals of the second, up to the sides of equations. -/
def Subsumes (C D : List Literal) : Prop :=
  ∃ (θ : Nat → Term) (f : Fin C.length → Fin D.length), Function.Injective f ∧
    ∀ i, ((C.get i).mapTerms (TermOver.bind θ)).EqUpToSides (D.get (f i))

/-! ## Measures -/

/-- A measure of literals that does not shrink on instances, whichever way round these are written. -/
def Grows (μ : Literal → Nat) : Prop :=
  ∀ (L M : Literal) (θ : Nat → Term), (L.mapTerms (TermOver.bind θ)).EqUpToSides M → μ L ≤ μ M

/-- What grows literal by literal has no larger sum over a clause that subsumes. -/
theorem Subsumes.sum_le {C D : List Literal} (h : Subsumes C D) {μ : Literal → Nat} (hμ : Grows μ) :
    (C.map μ).sum ≤ (D.map μ).sum := by
  obtain ⟨θ, f, hf, hinstance⟩ := h
  calc (C.map μ).sum
      = ∑ i : Fin C.length, μ (C.get i) := (Fin.sum_univ_fun_getElem C μ).symm
    _ ≤ ∑ i : Fin C.length, μ (D.get (f i)) := Finset.sum_le_sum fun i _ => hμ _ _ θ (hinstance i)
    _ = ∑ j ∈ Finset.univ.map ⟨f, hf⟩, μ (D.get j) := by rw [Finset.sum_map]; rfl
    _ ≤ ∑ j : Fin D.length, μ (D.get j) := Finset.sum_le_sum_of_subset (Finset.subset_univ _)
    _ = (D.map μ).sum := Fin.sum_univ_fun_getElem D μ

theorem Term.symbolCountList_eq_sum (test : Nat → Bool) (ts : List Term) :
    Term.symbolCountList test ts = (ts.map (Term.symbolCount test)).sum := by
  induction ts with
  | nil => rfl
  | cons t ts ih => rw [Term.symbolCountList, ih, List.map_cons, List.sum_cons]

/-- Replacing variables takes no symbol away. -/
theorem Term.symbolCount_le_bind (test : Nat → Bool) (θ : Nat → Term) (t : Term) :
    Term.symbolCount test t ≤ Term.symbolCount test (t.bind θ) := by
  induction t using TermOver.induction with
  | var x => exact Nat.zero_le _
  | const c => exact Nat.le_refl _
  | app f args ih =>
    rw [TermOver.bind_app, Term.symbolCount, Term.symbolCount, Term.symbolCountList_eq_sum,
      Term.symbolCountList_eq_sum, List.map_map]
    exact Nat.add_le_add_left (List.sum_le_sum ih) _

namespace Literal

/-- Counts literals of one sign only. -/
def signed (positive : Bool) (count : Literal → Nat) (lit : Literal) : Nat :=
  if lit.isPositive = positive then count lit else 0

/-- The symbols of a literal in buckets that pass a test. -/
def symbols (test : Nat → Bool) (lit : Literal) : Nat :=
  Term.symbolCountList test lit.terms

theorem EqUpToSides.isPositive_eq {L M : Literal} {θ : Nat → Term}
    (h : (L.mapTerms (TermOver.bind θ)).EqUpToSides M) : L.isPositive = M.isPositive := by
  rcases h with rfl | rfl <;> cases L <;> rfl

theorem grows_signed {count : Literal → Nat} (h : Grows count) (positive : Bool) :
    Grows (signed positive count) := by
  intro L M θ hM
  rw [signed, signed, hM.isPositive_eq]
  split
  · exact h L M θ hM
  · exact Nat.le_refl 0

theorem grows_one : Grows fun _ => 1 :=
  fun _ _ _ _ => Nat.le_refl 1

theorem grows_isEquation : Grows fun lit => lit.isEquation.toNat := by
  rintro L M θ (rfl | rfl) <;> cases L <;> exact Nat.le_refl _

/-- The order of the sides does not matter for what is counted. -/
theorem symbols_exchanged (test : Nat → Bool) (lit : Literal) :
    lit.exchanged.symbols test = lit.symbols test := by
  cases lit with
  | equation lhs rhs positive => exact Nat.add_left_comm _ _ _
  | _ => rfl

theorem symbols_le_mapTerms_bind (test : Nat → Bool) (θ : Nat → Term) (lit : Literal) :
    lit.symbols test ≤ (lit.mapTerms (TermOver.bind θ)).symbols test := by
  have hgrows := Term.symbolCount_le_bind test θ
  cases lit with
  | equation lhs rhs positive =>
    exact Nat.add_le_add (hgrows lhs) (Nat.add_le_add_right (hgrows rhs) 0)
  | prop atom positive => exact Nat.add_le_add_right (hgrows atom) 0
  | verum => exact Nat.le_refl _
  | falsum => exact Nat.le_refl _

theorem grows_symbols (test : Nat → Bool) : Grows (symbols test) := by
  rintro L M θ (rfl | rfl)
  · exact L.symbols_le_mapTerms_bind test θ
  · rw [symbols_exchanged]
    exact L.symbols_le_mapTerms_bind test θ

/-- Counting literals of one sign is counting all literals that are left of that sign. -/
theorem sum_map_signed {positive : Bool} {test : Literal → Bool}
    (htest : ∀ lit, test lit = true ↔ lit.isPositive = positive) (count : Literal → Nat)
    (literals : List Literal) :
    (literals.map (signed positive count)).sum = ((literals.filter test).map count).sum := by
  induction literals with
  | nil => rfl
  | cons lit literals ih =>
    rw [List.map_cons, List.sum_cons, ih, signed]
    by_cases h : lit.isPositive = positive
    · rw [if_pos h, List.filter_cons_of_pos ((htest lit).2 h), List.map_cons, List.sum_cons]
    · rw [if_neg h, List.filter_cons_of_neg (fun hlit => h ((htest lit).1 hlit)), Nat.zero_add]

theorem sum_map_isEquation (literals : List Literal) :
    (literals.map fun lit => lit.isEquation.toNat).sum = literals.countP isEquation := by
  induction literals with
  | nil => rfl
  | cons lit literals ih =>
    rw [List.map_cons, List.sum_cons, ih, List.countP_cons, Nat.add_comm]
    cases lit.isEquation <;> rfl

theorem sum_map_symbols (test : Nat → Bool) (literals : List Literal) :
    (literals.map (symbols test)).sum = Term.symbolCountList test (literals.flatMap terms) := by
  induction literals with
  | nil => rfl
  | cons lit literals ih =>
    rw [List.map_cons, List.sum_cons, ih, symbols, List.flatMap_cons]
    simp only [Term.symbolCountList_eq_sum, List.map_append, List.sum_append]

end Literal

namespace FeatureVector

open Literal (signed symbols)

/-- What a literal adds to each feature. -/
def measures : List (Literal → Nat) :=
  [signed true fun _ => 1, signed false fun _ => 1,
    signed true fun lit => lit.isEquation.toNat, signed false fun lit => lit.isEquation.toNat,
    signed true (symbols fun _ => true), signed false (symbols fun _ => true)] ++
  (List.range 4).map (fun b => signed true (symbols (· = b))) ++
  (List.range 4).map (fun b => signed false (symbols (· = b)))

/-- Every feature is a sum over the literals, cut off at the largest count. -/
theorem of_eq_measures (literals : List Literal) :
    of literals = ⟨measures.map fun μ => min (literals.map μ).sum maxCount⟩ := by
  have hpositive : ∀ count, (literals.map (signed true count)).sum =
      ((literals.filter Literal.isPositive).map count).sum :=
    fun count => Literal.sum_map_signed (fun _ => Iff.rfl) count literals
  have hnegative : ∀ count, (literals.map (signed false count)).sum =
      ((literals.filter Literal.isNegative).map count).sum :=
    fun count => Literal.sum_map_signed (fun lit => by rw [Literal.isNegative, Bool.not_eq_true'])
      count literals
  simp only [of, measures, List.map_append, List.map_cons, List.map_nil, List.map_map,
    Function.comp_def, hpositive, hnegative, Literal.sum_map_isEquation, Literal.sum_map_symbols,
    List.map_const', List.sum_replicate, smul_eq_mul, Nat.mul_one]

theorem grows_of_mem_measures {μ : Literal → Nat} (h : μ ∈ measures) : Grows μ := by
  simp only [measures, List.mem_append, List.mem_cons, List.not_mem_nil, or_false, List.mem_map] at h
  rcases h with (((rfl | rfl | rfl | rfl | rfl | rfl) | ⟨b, -, rfl⟩) | ⟨b, -, rfl⟩)
  · exact Literal.grows_signed Literal.grows_one true
  · exact Literal.grows_signed Literal.grows_one false
  · exact Literal.grows_signed Literal.grows_isEquation true
  · exact Literal.grows_signed Literal.grows_isEquation false
  · exact Literal.grows_signed (Literal.grows_symbols _) true
  · exact Literal.grows_signed (Literal.grows_symbols _) false
  · exact Literal.grows_signed (Literal.grows_symbols _) true
  · exact Literal.grows_signed (Literal.grows_symbols _) false

/-- Vectors that are related count by count are compared as such. -/
theorem le_of_forall₂ {v w : FeatureVector} (h : List.Forall₂ (· ≤ ·) v.counts w.counts) :
    v.le w = true := by
  rw [le, List.all_eq_true]
  intro e he
  exact decide_eq_true (List.forall₂_zip h he)

end FeatureVector

/-- A clause that subsumes another has no larger count. -/
theorem Subsumes.counts_le {C D : List Literal} (h : Subsumes C D) :
    List.Forall₂ (· ≤ ·) (FeatureVector.of C).counts (FeatureVector.of D).counts := by
  rw [FeatureVector.of_eq_measures, FeatureVector.of_eq_measures, List.forall₂_map_left_iff,
    List.forall₂_map_right_iff, List.forall₂_same]
  intro μ hμ
  have hsum := h.sum_le (FeatureVector.grows_of_mem_measures hμ)
  exact min_le_min_right _ hsum

/-! ## Searching the index -/

namespace FeatureIndex

variable {index : FeatureIndex} {id : ClauseId} {vector : FeatureVector} {literals : List Literal}

/-- A range query finds what is stored under counts that are in range one by one. -/
theorem Sound.mem_filterPaths (h : index.Sound) (hmem : (id, vector) ∈ index.vectors)
    {test : Nat → Nat → Bool} {bounds : List Nat}
    (hrange : List.Forall₂ (fun count bound => test bound count = true) vector.counts bounds) :
    id ∈ index.root.filterPaths (bounds.map test) := by
  have hstored : (vector.counts, id) ∈ index.root.toList :=
    h.contents.mem_iff.2 (List.mem_map.2 ⟨_, hmem, rfl⟩)
  rw [Trie.filterPaths_eq]
  exact List.mem_map.2 ⟨_, List.mem_filter.2 ⟨hstored, passes_map hrange⟩, rfl⟩

/-- What is stored under smaller counts is found as a possible subsumer. -/
theorem Sound.mem_subsumers (h : index.Sound) (hmem : (id, vector) ∈ index.vectors)
    (hle : List.Forall₂ (· ≤ ·) vector.counts (FeatureVector.of literals).counts) :
    id ∈ index.subsumers literals :=
  h.mem_filterPaths hmem (hle.imp fun _ _ hcount => decide_eq_true hcount)

/-- What is stored under larger counts is found as possibly subsumed. -/
theorem Sound.mem_subsumed (h : index.Sound) (hmem : (id, vector) ∈ index.vectors)
    (hle : List.Forall₂ (· ≤ ·) (FeatureVector.of literals).counts vector.counts) :
    id ∈ index.subsumed literals :=
  h.mem_filterPaths hmem (hle.flip.imp fun _ _ hcount => decide_eq_true hcount)

end FeatureIndex

namespace FeatureState

/-- The filter for subsumption never misses a clause. After every run:

* a clause that subsumes another, with multiplicities and up to the sides of equations, has no larger count
  in any feature, whatever the clauses are;
* the index holds the clauses that were added and not taken out since;
* each of these is found among the possible subsumers of every clause that it subsumes, and among the
  possibly subsumed of every clause that subsumes it. -/
theorem subsumes_filtered (store : ClauseStore) {calls : List ActiveCall} {state : FeatureState}
    (hrun : performAll ⟨store, .empty⟩ calls = .ok state) :
    (∀ C D, Subsumes C D →
      List.Forall₂ (· ≤ ·) (FeatureVector.of C).counts (FeatureVector.of D).counts ∧
        (FeatureVector.of C).le (FeatureVector.of D) = true) ∧
    (∀ id, state.index.contains id = true ↔ id ∈ ActiveCall.keptAfter calls) ∧
    ∀ id, state.index.contains id = true → ∃ clause, state.store.get? id = some clause ∧
      (∀ D, Subsumes clause.literals D → id ∈ state.index.subsumers D) ∧
      ∀ C, Subsumes C clause.literals → id ∈ state.index.subsumed C := by
  have h := (kept_empty store).performAll hrun
  refine ⟨fun C D hsub => ⟨hsub.counts_le, FeatureVector.le_of_forall₂ hsub.counts_le⟩, fun id => ?_,
    fun id hid => ?_⟩
  · rw [FeatureIndex.contains_iff, h.ids]
    rfl
  · obtain ⟨⟨_, vector⟩, hmem, rfl⟩ := List.mem_map.1 (FeatureIndex.contains_iff.1 hid)
    obtain ⟨clause, hget, rfl⟩ := h.featured _ hmem
    refine ⟨clause, hget, fun D hsub => ?_, fun C hsub => ?_⟩
    · exact h.sound.mem_subsumers hmem hsub.counts_le
    · exact h.sound.mem_subsumed hmem hsub.counts_le

/-- The clause `f(x) = a ∨ f(y) = a`. -/
def shortClause : ClauseInput where
  literals := [.equation (.app ⟨0, 1⟩ [.var 0]) (.const 0) true,
    .equation (.app ⟨0, 1⟩ [.var 1]) (.const 0) true]
  provenance := .input .axiomatic

/-- It subsumes `p(a) ∨ a = f(b) ∨ f(c) = a`: its literals go to the last two in the other order, one of them
with the sides exchanged. It is found for that clause after it was taken out and added again. -/
theorem subsumes_filtered_exchanged :
    ∃ state, performAll ⟨.new (.kbo {}) (.preset .none), .empty⟩
        [.store (.create shortClause), .add [1, 1], .remove [1], .add [1]] = .ok state ∧
      1 ∈ state.index.subsumers
        [.prop (.app ⟨1, 1⟩ [.const 0]) true, .equation (.const 0) (.app ⟨0, 1⟩ [.const 1]) true,
          .equation (.app ⟨0, 1⟩ [.const 2]) (.const 0) true] := by
  have hstore : ((ClauseStore.new (.kbo {}) (.preset .none)).create shortClause).1 =
      (((ClauseStore.bare (.kbo {}) (.preset .none)).createNew
        { literals := [.verum], provenance := (Provenance.input .axiomatic).persist }
        [.verum]).1.createNew shortClause shortClause.literals).1 := by
    rw [ClauseStore.create_new_eq_createNew _ _ (by decide) (by decide)]
    rfl
  have hseen : (performAll ⟨((ClauseStore.new (.kbo {}) (.preset .none)).create shortClause).1, .empty⟩
      [.add [1, 1], .remove [1], .add [1]]).map
        (fun state => (state.index.contains 1, (state.store.get? 1).map (·.literals))) =
      .ok (true, some shortClause.literals) := by
    rw [hstore]
    decide +kernel
  obtain ⟨state, hafter, hseen⟩ := Fault.bind_eq_ok.1 hseen
  obtain ⟨hcontains, clause', hget', hliterals⟩ : state.index.contains 1 = true ∧
      ∃ clause, state.store.get? 1 = some clause ∧ clause.literals = shortClause.literals := by
    simpa using Except.ok.inj hseen
  have hrun : performAll ⟨.new (.kbo {}) (.preset .none), .empty⟩
      [.store (.create shortClause), .add [1, 1], .remove [1], .add [1]] = .ok state := hafter
  obtain ⟨clause, hget, hsubsumers, -⟩ :=
    (subsumes_filtered (.new (.kbo {}) (.preset .none)) hrun).2.2 1 hcontains
  rw [hget', Option.some.injEq] at hget
  subst hget
  refine ⟨state, hrun, hsubsumers _ ?_⟩
  rw [hliterals]
  have hinjective : Function.Injective fun i : Fin 2 => if i = 0 then (2 : Fin 3) else 1 := by decide
  refine ⟨fun x => if x = 0 then .const 2 else .const 1, _, hinjective, ?_⟩
  show ∀ i : Fin 2, _
  decide +kernel

end FeatureState

end GivenClause
