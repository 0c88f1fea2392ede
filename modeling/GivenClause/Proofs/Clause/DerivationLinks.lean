import GivenClause.Proofs.Clause.StoreIntegrity

/-! # Derivation links

A clause knows the clauses that it was derived from, and each of these lists it as a descendant. The link
is entered before the clause exists; and an instance takes over the descendants of the clause that it is
made from, also where the instance turns out to be an older clause, which may be one of those descendants
itself. As long as no call stops half-way, the links are complete, they lead to clauses that exist, and no
clause becomes its own descendant.

* `ClauseStore.getElem?_linkParents` and `ClauseStore.getElem?_push_linkParents` say what adding a clause
  does to the others;
* `ClauseStore.Linked` is the invariant, `ClauseStore.CreateOutcome.linked` and
  `ClauseStore.Linked.extendDescendants` are the steps;
* `ClauseStore.Completes` are runs without faults, `ClauseStore.derivations_performAll` what they keep. -/

namespace GivenClause

open InsertionOrder

namespace ClauseStore

/-! ## Linking a new clause -/

/-- When all parents are known, exactly they gain the new clause as a descendant. -/
theorem getElem?_linkParents {clauses linked : Array Clause} {id : ClauseId} {parents : List ClauseId}
    (h : linkParents clauses id parents = (linked, none)) :
    (∀ parent ∈ parents, parent < clauses.size) ∧
      ∀ i, linked[i]? = clauses[i]?.map fun c =>
        if i ∈ parents then { c with descendants := insertNew c.descendants id } else c := by
  induction parents generalizing clauses with
  | nil =>
    cases h
    simp
  | cons parent parents ih =>
    rw [linkParents] at h
    split at h
    · next hparent =>
      obtain ⟨hknown, hlinked⟩ := ih h
      rw [Array.size_modify] at hknown
      refine ⟨List.forall_mem_cons.2 ⟨hparent, hknown⟩, fun i => ?_⟩
      rw [hlinked i, Array.getElem?_modify]
      cases clauses[i]? with
      | none => simp
      | some c =>
        by_cases hi : parent = i
        · by_cases hmem : i ∈ parents
          · -- a parent that is listed twice is entered once
            simp [hi, hmem]
          · simp [hi, hmem]
        · simp [hi, Ne.symm hi]
    · cases h

/-- The clauses after a new one was linked to its parents and put at the end. -/
theorem getElem?_push_linkParents {clauses linked : Array Clause} {parents : List ClauseId}
    (h : linkParents clauses clauses.size parents = (linked, none)) (clause : Clause) (i : Nat) :
    (linked.push clause)[i]? = if i = clauses.size then some clause else clauses[i]?.map fun c =>
      if i ∈ parents then { c with descendants := insertNew c.descendants clauses.size } else c := by
  have hsize : linked.size = clauses.size := by
    have hcontinue := linkParents_continue clauses.size parents clauses
    rw [h] at hcontinue
    exact hcontinue.size_eq
  rw [Array.getElem?_push, hsize, (getElem?_linkParents h).2 i]

/-! ## Complete links -/

/-- The links between the clauses of a store are complete. -/
structure Linked (store : ClauseStore) : Prop where
  /-- A parent is older than the clause and lists it as a descendant. -/
  parents : ∀ id clause, store.get? id = some clause → ∀ parent ∈ clause.parents,
    parent < id ∧ ∃ origin, store.get? parent = some origin ∧ id ∈ origin.descendants
  /-- A descendant is another clause of the store. -/
  descendants : ∀ id clause, store.get? id = some clause → ∀ other ∈ clause.descendants,
    (∃ derived, store.get? other = some derived) ∧ other ≠ id

variable {store later : ClauseStore}

theorem exists_get? {id : ClauseId} (h : id < store.size) : ∃ clause, store.get? id = some clause :=
  ⟨store.clauses[id], Array.getElem?_eq_getElem h⟩

namespace Linked

/-- Links to parents are never lost. -/
theorem parents_of_extends (h : store.Linked) (hextends : store.Extends later) {id : ClauseId}
    {clause : Clause} (hget : store.get? id = some clause) {parent : ClauseId}
    (hparent : parent ∈ clause.parents) :
    parent < id ∧ ∃ origin, later.get? parent = some origin ∧ id ∈ origin.descendants := by
  obtain ⟨hlt, origin, horigin, hmem⟩ := h.parents id clause hget parent hparent
  obtain ⟨origin', horigin', hcontinues⟩ := hextends.continues parent origin horigin
  exact ⟨hlt, origin', horigin', hcontinues.grown.subset hmem⟩

/-- Only the clauses of a store matter for its links. -/
theorem of_clauses_eq (h : store.Linked) (heq : later.clauses = store.clauses) : later.Linked := by
  have hget : later.get? = store.get? := by
    funext id
    rw [get?, get?, heq]
  refine ⟨?_, ?_⟩
  · rw [hget]
    exact h.parents
  · rw [hget]
    exact h.descendants

/-- A clause may take over descendants that are in the store. -/
theorem extendDescendants (h : store.Linked) (id : ClauseId) {extra : List ClauseId}
    (hextra : ∀ other ∈ extra, ∃ derived, store.get? other = some derived) :
    (store.extendDescendants id extra).Linked := by
  have hcontinue := store.extendDescendants_continue id extra
  have hextends : store.Extends (store.extendDescendants id extra) := .ofClauses hcontinue
  refine ⟨?_, ?_⟩
  · intro i clause' hget' parent hparent
    obtain ⟨clause, hget, hcontinues⟩ := hcontinue.of_getElem? hget'
    rw [hcontinues.same] at hparent
    exact h.parents_of_extends hextends hget hparent
  · intro i clause' hget' other hother
    rw [get?, ClauseStore.extendDescendants, Array.getElem?_modify] at hget'
    split at hget'
    · next heq =>
      subst heq
      obtain ⟨clause, hget, rfl⟩ := Option.map_eq_some_iff.1 hget'
      rcases mem_insertAll.1 hother with hold | hnew
      · obtain ⟨hknown, hne⟩ := h.descendants id clause hget other hold
        exact ⟨hextends.exists_get? hknown, hne⟩
      · -- the clause itself is left out of what it takes over
        obtain ⟨hmem, hne⟩ := List.mem_filter.1 hnew
        exact ⟨hextends.exists_get? (hextra other hmem), by simpa using hne⟩
    · obtain ⟨hknown, hne⟩ := h.descendants i clause' hget' other hother
      exact ⟨hextends.exists_get? hknown, hne⟩

end Linked

/-- A creation that gives a clause keeps the links complete. -/
theorem CreateOutcome.linked {input : ClauseInput} {id : ClauseId}
    (houtcome : CreateOutcome store input later (.ok id)) (h : store.Linked) : later.Linked := by
  have hextends := houtcome.extends
  cases houtcome with
  | oversized => exact h.of_clauses_eq rfl
  | shared => exact h.of_clauses_eq rfl
  | @made _ _ _ selected distance clauses _ _ links =>
    have hknown := (getElem?_linkParents links).1
    set made := store.clauseFor input selected distance
    set later : ClauseStore :=
      { store with
        clauses := clauses.push made
        table := store.table.insert (store.keyFor input) store.size
        stats := { store.stats with created := store.stats.created + 1 } }
    have hget : ∀ i, later.get? i = if i = store.size then some made else (store.get? i).map fun c =>
        if i ∈ input.parents then { c with descendants := insertNew c.descendants store.size }
        else c := getElem?_push_linkParents links made
    -- a clause is the new one, or an old one that may have gained the new one as a descendant
    have hold : ∀ {i : ClauseId} {clause : Clause}, later.get? i = some clause → i ≠ store.size →
        ∃ old, store.get? i = some old ∧ clause.parents = old.parents ∧
          ∀ other ∈ clause.descendants, other ∈ old.descendants ∨ other = store.size := by
      intro i clause hi hne
      rw [hget, if_neg hne] at hi
      obtain ⟨old, hold, rfl⟩ := Option.map_eq_some_iff.1 hi
      refine ⟨old, hold, ?_⟩
      split
      · exact ⟨rfl, fun other hother => mem_insertNew.1 hother⟩
      · exact ⟨rfl, fun other hother => Or.inl hother⟩
    have hnew : later.get? store.size = some made := by rw [hget, if_pos rfl]
    refine ⟨?_, ?_⟩
    · intro i clause hi parent hparent
      by_cases hne : i = store.size
      · -- the parents of the new clause have just been linked to it
        subst hne
        rw [hnew, Option.some.injEq] at hi
        subst hi
        have hlt : parent < store.size := hknown parent hparent
        obtain ⟨origin, horigin⟩ := exists_get? hlt
        refine ⟨hlt, { origin with descendants := insertNew origin.descendants store.size }, ?_,
          mem_insertNew.2 (Or.inr rfl)⟩
        rw [hget, if_neg (Nat.ne_of_lt hlt), horigin, Option.map_some]
        exact congrArg some (if_pos hparent)
      · obtain ⟨old, hget', hparents, -⟩ := hold hi hne
        rw [hparents] at hparent
        exact h.parents_of_extends hextends hget' hparent
    · intro i clause hi other hother
      by_cases hne : i = store.size
      · subst hne
        rw [hnew, Option.some.injEq] at hi
        subst hi
        cases hother
      · obtain ⟨old, hget', -, hdescendants⟩ := hold hi hne
        rcases hdescendants other hother with hmem | rfl
        · obtain ⟨hknown', hne'⟩ := h.descendants i old hget' other hmem
          exact ⟨hextends.exists_get? hknown', hne'⟩
        · exact ⟨⟨made, hnew⟩, Ne.symm hne⟩

/-! ## Runs without faults -/

/-- No call of a run stops with a fault. -/
def Completes (store : ClauseStore) : List StoreCall → Prop
  | [] => True
  | call :: calls => (store.perform call).2 = .ok () ∧ (store.perform call).1.Completes calls

theorem completes_append {calls calls' : List StoreCall} :
    store.Completes (calls ++ calls') ↔
      store.Completes calls ∧ (store.performAll calls).Completes calls' := by
  induction calls generalizing store with
  | nil => simp [Completes, performAll]
  | cons call calls ih =>
    rw [List.cons_append, Completes, Completes, performAll, ih, and_assoc]

namespace Linked

theorem create (h : store.Linked) {input : ClauseInput} {id : ClauseId}
    (hok : (store.create input).2 = .ok id) : (store.create input).1.Linked := by
  have houtcome := store.create_outcome input
  rw [hok] at houtcome
  exact houtcome.linked h

/-- The instance of a clause takes over descendants that the clause had in the store before. -/
theorem applySubstitution (h : store.Linked) {id result : ClauseId} {σ : Substitution} {scope : Nat}
    (hok : (store.applySubstitution id σ scope).2 = .ok result) :
    (store.applySubstitution id σ scope).1.Linked := by
  have houtcome := store.applySubstitution_outcome id σ scope
  rw [hok] at houtcome
  generalize (store.applySubstitution id σ scope).1 = later at houtcome ⊢
  cases houtcome with
  | same _ created =>
    have hlinked := h.create (congrArg Prod.snd created)
    rwa [created] at hlinked
  | @other clause later _ found created ne =>
    have hextends := (store.create_outcome (clause.asInstance id σ scope)).extends
    have hlinked := h.create (congrArg Prod.snd created)
    rw [created] at hextends hlinked
    refine hlinked.extendDescendants result fun other hother => ?_
    exact hextends.exists_get? (h.descendants id clause found other hother).1

theorem rederive (h : store.Linked) {id result : ClauseId}
    (hok : (store.rederive id).2 = .ok result) : (store.rederive id).1.Linked := by
  have houtcome := store.rederive_outcome id
  generalize (store.rederive id).1 = later at houtcome ⊢
  generalize (store.rederive id).2 = answer at houtcome hok
  cases houtcome with
  | unknown => cases hok
  | current => exact h
  | again => exact h.create hok

/-- A call that does not fault keeps the links complete. -/
theorem perform (h : store.Linked) {call : StoreCall} (hok : (store.perform call).2 = .ok ()) :
    (store.perform call).1.Linked := by
  have hresult : ∀ {result : Except Fault ClauseId}, (result.map fun _ => ()) = .ok () →
      ∃ id, result = .ok id := by
    rintro (fault | id) hmap
    · cases hmap
    · exact ⟨id, rfl⟩
  cases call with
  | create input =>
    obtain ⟨id, hid⟩ := hresult hok
    exact h.create hid
  | applySubstitution id σ scope =>
    obtain ⟨id, hid⟩ := hresult hok
    exact h.applySubstitution hid
  | rederive id =>
    obtain ⟨id, hid⟩ := hresult hok
    exact h.rederive hid
  | setOrdering ordering => exact h.of_clauses_eq (clauses_nextEpoch _)
  | setSelector selector => exact h.of_clauses_eq (clauses_nextEpoch _)

/-- A run without faults keeps the links complete. -/
theorem performAll (h : store.Linked) {calls : List StoreCall}
    (hcalls : store.Completes calls) : (store.performAll calls).Linked := by
  induction calls generalizing store with
  | nil => exact h
  | cons call calls ih => exact ih (h.perform hcalls.1) hcalls.2

end Linked

/-- The trivial clause has no parents and no descendants. -/
theorem linked_new (ordering : TermOrder) (selector : Selector) : (new ordering selector).Linked := by
  have hbare : (bare ordering selector).Linked := ⟨by simp [bare, get?], by simp [bare, get?]⟩
  have hok : ((bare ordering selector).create
      { literals := [.verum], provenance := (Provenance.input .axiomatic).persist }).2 =
      .ok trivial := by
    rw [create_eq_createNew (by decide) Std.HashMap.getElem?_empty]
    cases selector with
    | preset strategy => cases strategy <;> rfl
    | custom name select => rfl
  exact hbare.create hok

/-- **Clauses are immutable and derivation links are complete.** Along a run without faults a clause
keeps all that it has, its descendants at the front of the later ones; and at every point of the run a
parent is older than the clause and lists it as a descendant, and a descendant is another clause of the
store. -/
theorem derivations_performAll (ordering : TermOrder) (selector : Selector)
    (before after : List StoreCall) (h : (new ordering selector).Completes (before ++ after)) :
    let earlier := (new ordering selector).performAll before
    let later := (new ordering selector).performAll (before ++ after)
    earlier.Extends later ∧ earlier.Linked ∧ later.Linked := by
  obtain ⟨hbefore, -⟩ := completes_append.1 h
  have hnew := linked_new ordering selector
  refine ⟨?_, hnew.performAll hbefore, hnew.performAll h⟩
  rw [performAll_append]
  exact extends_performAll _ after

/-- The clause `P(x)`. -/
def everyInstance : ClauseInput where
  literals := [.prop (.app ⟨0, 1⟩ [.var 0]) true]
  provenance := .input .axiomatic

/-- The clause `P(a)`, derived from `P(x)`. -/
def oneInstance : ClauseInput where
  literals := [.prop (.app ⟨0, 1⟩ [.const 1]) true]
  provenance := .input .axiomatic
  parents := [1]

/-- The clause `Q`, derived from `P(x)`. -/
def consequence : ClauseInput where
  literals := [.prop (.const 2) true]
  provenance := .input .axiomatic
  parents := [1]

/-- A store that holds `P(x)`, as it is made when nothing is looked up. -/
def everyInstanceStore : ClauseStore :=
  (((bare (.kbo {}) (.preset .none)).createNew
    { literals := [.verum], provenance := (Provenance.input .axiomatic).persist } [.verum]).1.createNew
    everyInstance (canonicalLiterals everyInstance.literals)).1

/-- The store with `P(a)` added. -/
def oneInstanceStore : ClauseStore :=
  (everyInstanceStore.createNew oneInstance (canonicalLiterals oneInstance.literals)).1

/-- The store with `P(a)` and `Q` added. -/
def consequenceStore : ClauseStore :=
  (oneInstanceStore.createNew consequence (canonicalLiterals consequence.literals)).1

/-- Instantiating `P(x)` by `a` finds the older clause `P(a)`. It takes over `Q` from the descendants of
`P(x)`, and not itself. -/
theorem derivations_performAll_inherited :
    let before : List StoreCall := [.create everyInstance, .create oneInstance, .create consequence]
    let after : List StoreCall := [.applySubstitution 1 ⟨[(⟨0, 0⟩, .const 1)]⟩ 0]
    let start := new (.kbo {}) (.preset .none)
    let earlier := start.performAll before
    let later := start.performAll (before ++ after)
    start.Completes (before ++ after) ∧
      (earlier.Extends later ∧ earlier.Linked ∧ later.Linked) ∧
      earlier.clauses.toList.map (·.descendants) = [[], [2, 3], [], []] ∧
      later.clauses.toList.map (·.descendants) = [[], [2, 3], [3], []] := by
  intro before after start earlier later
  have hwell : ∀ calls, (start.performAll calls).WellFormed :=
    wellFormed_performAll (wellFormed_new (.kbo {}) (.preset .none))
  have hfirst : start.perform (.create everyInstance) = (everyInstanceStore, .ok ()) := by
    have hok := (hwell []).perform_create everyInstance 1 (by decide)
    rw [performAll, show start = _ from new_eq_createNew (.kbo {}) (.preset .none)] at hok
    rw [show start = _ from new_eq_createNew (.kbo {}) (.preset .none)]
    exact hok (by decide +kernel) (by decide +kernel)
  have hsecond : everyInstanceStore.perform (.create oneInstance) = (oneInstanceStore, .ok ()) := by
    have hstore := hwell [.create everyInstance]
    simp only [performAll, hfirst] at hstore
    exact hstore.perform_create oneInstance 2 (by decide) (by decide +kernel) (by decide +kernel)
  have hthird : oneInstanceStore.perform (.create consequence) = (consequenceStore, .ok ()) := by
    have hstore := hwell [.create everyInstance, .create oneInstance]
    simp only [performAll, hfirst, hsecond] at hstore
    exact hstore.perform_create consequence 3 (by decide) (by decide +kernel) (by decide +kernel)
  -- the instance is known, so that its descendants are the only thing to change
  have hfourth : consequenceStore.perform (.applySubstitution 1 ⟨[(⟨0, 0⟩, .const 1)]⟩ 0) =
      (({ consequenceStore with
          stats := { consequenceStore.stats with hits := 1 } } : ClauseStore).extendDescendants 2
        [2, 3], .ok ()) := by
    have hstore := hwell before
    simp only [before, performAll, hfirst, hsecond, hthird] at hstore
    obtain ⟨clause, hget, hliterals, hdescendants⟩ : ∃ clause, consequenceStore.get 1 = .ok clause ∧
        clause.literals = everyInstance.literals ∧ clause.descendants = [2, 3] := ⟨_, rfl, rfl, rfl⟩
    obtain ⟨found, hfound, hkey⟩ : ∃ found, consequenceStore.get? 2 = some found ∧
        found.key = ⟨oneInstance.literals, 0⟩ := ⟨_, rfl, rfl⟩
    have hshort : (instantiateLiterals ⟨[(⟨0, 0⟩, .const 1)]⟩ 0 {} clause.literals).1.length ≤
        LiteralSet.capacity := by
      rw [hliterals]
      decide
    rw [ClauseStore.perform, applySubstitution, hget]
    dsimp only
    rw [hstore.create_known hshort hfound (by rw [hkey, keyFor, hliterals]; rfl), hdescendants]
    rfl
  have hcompletes : start.Completes (before ++ after) := by
    simp only [before, after, List.cons_append, List.nil_append, Completes, hfirst, hsecond, hthird,
      hfourth, and_self]
  refine ⟨hcompletes, derivations_performAll (.kbo {}) (.preset .none) before after hcompletes, ?_, ?_⟩
  · simp only [earlier, before, performAll, hfirst, hsecond, hthird]
    decide +kernel
  · simp only [later, before, after, List.cons_append, List.nil_append, performAll, hfirst, hsecond,
      hthird, hfourth]
    decide +kernel

end ClauseStore

end GivenClause
