import GivenClause.Proofs.Clause.GoalDistance

/-! # Creations that meet an unknown parent

A creation looks at its parents twice: for the goal distance of the new clause, and to enter the clause as
a descendant of each parent. The first look changes nothing, so that a parent which is not in the store
stops the creation and leaves the store as it was. A goal is at distance zero and skips the first look. It
finds the unknown parent while it enters descendants, and by then the parents in front of the unknown one
list a clause that is never made.

* `ClauseStore.linkParents_snd` and `ClauseStore.getElem?_linkParents_fst` say where linking stops and what
  it has done by then;
* `ClauseStore.MeetsUnknown` says when a creation stops at a parent, and
  `ClauseStore.createNew_of_unknown_parent` in which state;
* `ClauseStore.create_at_unknown_parent` holds in every run, and `ClauseStore.unmade_descendant_listed` is a
  goal that leaves a trace. -/

namespace GivenClause

open InsertionOrder

namespace ClauseStore

/-! ## Linking up to an unknown parent -/

/-- Linking stops at the first parent that is not among the clauses. -/
theorem linkParents_snd (clauses : Array Clause) (id : ClauseId) (parents : List ClauseId) :
    (linkParents clauses id parents).2 =
      (parents.find? (clauses.size ≤ ·)).map (.unknownClause clauses.size) := by
  induction parents generalizing clauses with
  | nil => rfl
  | cons parent parents ih =>
    rw [linkParents]
    by_cases hparent : parent < clauses.size
    · rw [if_pos hparent, ih, Array.size_modify, List.find?_cons_of_neg (by simpa using hparent)]
    · rw [if_neg hparent, List.find?_cons_of_pos (by simpa using hparent), Option.map_some]

/-- The parents in front of the first unknown one gain the new clause as a descendant, also when there is
an unknown one. -/
theorem getElem?_linkParents_fst (clauses : Array Clause) (id : ClauseId) (parents : List ClauseId)
    (i : Nat) :
    (linkParents clauses id parents).1[i]? = clauses[i]?.map fun c =>
      if i ∈ parents.takeWhile (· < clauses.size) then
        { c with descendants := insertNew c.descendants id }
      else c := by
  induction parents generalizing clauses with
  | nil => simp [linkParents]
  | cons parent parents ih =>
    rw [linkParents]
    by_cases hparent : parent < clauses.size
    · rw [if_pos hparent, ih, Array.size_modify, Array.getElem?_modify,
        List.takeWhile_cons_of_pos (by simpa using hparent)]
      cases clauses[i]? with
      | none => simp
      | some c =>
        by_cases hi : parent = i
        · -- entering the clause once more changes nothing
          by_cases hmem : i ∈ parents.takeWhile (· < clauses.size) <;> simp [hi, hmem]
        · simp [hi, Ne.symm hi]
    · rw [if_neg hparent, List.takeWhile_cons_of_neg (by simpa using hparent)]
      simp

variable {store : ClauseStore} {input : ClauseInput} {parents : List ClauseId} {index : ClauseId}

/-- Looking distances up stops at the first parent that is not in the store. -/
theorem distances_of_unknown (h : parents.find? (store.size ≤ ·) = some index) :
    store.distances parents = .error (.unknownClause store.size index) := by
  induction parents with
  | nil => cases h
  | cons parent parents ih =>
    rw [distances]
    by_cases hparent : parent < store.size
    · rw [List.find?_cons_of_neg (by simpa using hparent)] at h
      obtain ⟨clause, hclause⟩ := exists_get? hparent
      rw [get_eq_ok_iff.2 hclause, ih h]
      rfl
    · rw [List.find?_cons_of_pos (by simpa using hparent), Option.some.injEq] at h
      have hnone : store.get? parent = none := Array.getElem?_eq_none (Nat.le_of_not_lt hparent)
      rw [get, hnone, h]
      rfl

/-- The distances of clauses of the store can be looked up. -/
theorem exists_distances (h : ∀ parent ∈ parents, parent < store.size) :
    ∃ known, store.distances parents = .ok known := by
  induction parents with
  | nil => exact ⟨[], rfl⟩
  | cons parent parents ih =>
    obtain ⟨hparent, hrest⟩ := List.forall_mem_cons.1 h
    obtain ⟨clause, hclause⟩ := exists_get? hparent
    obtain ⟨known, hknown⟩ := ih hrest
    refine ⟨clause.distance :: known, ?_⟩
    rw [distances, get_eq_ok_iff.2 hclause, hknown]
    rfl

/-! ## Making a clause from known and unknown parents -/

/-- A new clause is not made when there is no number left for it. -/
theorem createNew_of_full (hfull : idBound ≤ store.size) (input : ClauseInput) (literals : List Literal) :
    store.createNew input literals = (store, .error .idsExhausted) := by
  rw [createNew, nextId_eq_error_iff.2 ⟨hfull, rfl⟩]

/-- A new clause is not made when its literals cannot be selected. -/
theorem createNew_of_unselected {literals : List Literal} {fault : Fault} (hroom : store.size < idBound)
    (hselected : store.selectionFor literals input.selected = .error fault) :
    store.createNew input literals = (store, .error fault) := by
  rw [createNew, nextId_eq_ok_iff.2 ⟨hroom, rfl⟩]
  simp only [hselected]

/-- A new clause with a number and known parents is made once its literals are selected. -/
theorem createNew_of_known_parents {literals : List Literal} {selected : LiteralSet}
    (hroom : store.size < idBound)
    (hselected : store.selectionFor literals input.selected = .ok selected)
    (hparents : ∀ parent ∈ input.parents, parent < store.size) :
    (store.createNew input literals).2 = .ok store.size := by
  obtain ⟨distance, hdistance⟩ :
      ∃ distance, store.distanceFor input.provenance.role input.parents = .ok distance := by
    obtain ⟨known, hknown⟩ := exists_distances hparents
    by_cases hrole : input.provenance.role = .negatedConjecture
    · exact ⟨_, distanceFor_eq_ok_iff.2 (Or.inl ⟨hrole, rfl⟩)⟩
    · exact ⟨_, distanceFor_eq_ok_iff.2 (Or.inr ⟨hrole, known, hknown, rfl⟩)⟩
  have hlinks : (linkParents store.clauses store.size input.parents).2 = none := by
    rw [linkParents_snd, Option.map_eq_none_iff, List.find?_eq_none]
    simpa [size] using hparents
  rcases hlinked : linkParents store.clauses store.size input.parents with ⟨clauses, fault⟩
  rw [hlinked] at hlinks
  cases hlinks
  rw [createNew, nextId_eq_ok_iff.2 ⟨hroom, rfl⟩]
  simp only [hselected, hdistance, hlinked]

/-- The store that a creation leaves when it stops at an unknown parent. -/
def atUnknownParent (store : ClauseStore) (input : ClauseInput) : ClauseStore :=
  if input.provenance.role = .negatedConjecture then
    { store with clauses := (linkParents store.clauses store.size input.parents).1 }
  else store

/-- A new clause with an unknown parent is not made. -/
theorem createNew_of_unknown_parent {literals : List Literal} {selected : LiteralSet}
    (hroom : store.size < idBound)
    (hselected : store.selectionFor literals input.selected = .ok selected)
    (hfirst : input.parents.find? (store.size ≤ ·) = some index) :
    store.createNew input literals =
      (store.atUnknownParent input, .error (.unknownClause store.size index)) := by
  rw [createNew, nextId_eq_ok_iff.2 ⟨hroom, rfl⟩, atUnknownParent]
  simp only [hselected]
  by_cases hrole : input.provenance.role = .negatedConjecture
  · -- a goal does not look distances up
    have hlinks : (linkParents store.clauses store.size input.parents).2 =
        some (.unknownClause store.size index) := by
      rw [linkParents_snd, ← size, hfirst, Option.map_some]
    rcases hlinked : linkParents store.clauses store.size input.parents with ⟨clauses, fault⟩
    rw [hlinked] at hlinks
    cases hlinks
    simp only [distanceFor, if_pos hrole]
  · rw [distanceFor, if_neg hrole, distances_of_unknown hfirst, if_neg hrole]
    rfl

/-! ## When a creation stops at a parent -/

/-- A creation gets as far as its parents, and the first one that is not in the store is `index`. -/
structure MeetsUnknown (store : ClauseStore) (input : ClauseInput) (index : ClauseId) : Prop where
  /-- The clause is not too long. -/
  short : input.literals.length ≤ LiteralSet.capacity
  /-- The clause is not known yet. -/
  unshared : ∀ id, ¬ store.HasKey id (store.keyFor input)
  /-- There is a number left for it. -/
  room : store.size < idBound
  /-- Its literals can be selected. -/
  selects : ∃ selected,
    store.selectionFor (canonicalLiterals input.literals) input.selected = .ok selected
  /-- The first parent that is not in the store. -/
  first : input.parents.find? (store.size ≤ ·) = some index

theorem WellFormed.table_eq_none_iff (h : store.WellFormed) {key : ClauseKey} :
    store.table[key]? = none ↔ ∀ id, ¬ store.HasKey id key := by
  rw [Option.eq_none_iff_forall_ne_some]
  exact forall_congr' fun id => not_congr (h.table key id)

theorem WellFormed.create_of_meetsUnknown (h : store.WellFormed) (hmeets : store.MeetsUnknown input index) :
    store.create input =
      (store.atUnknownParent input, .error (.unknownClause store.size index)) := by
  obtain ⟨selected, hselected⟩ := hmeets.selects
  rw [create_eq_createNew hmeets.short (h.table_eq_none_iff.2 hmeets.unshared),
    createNew_of_unknown_parent hmeets.room hselected hmeets.first]

/-- A creation names an unknown clause exactly when it gets as far as its parents and does not find this
one. -/
theorem WellFormed.create_eq_unknownClause_iff (h : store.WellFormed) {count : Nat} :
    (store.create input).2 = .error (.unknownClause count index) ↔
      count = store.size ∧ store.MeetsUnknown input index := by
  constructor
  · intro hfault
    have houtcome := store.create_outcome input
    rw [hfault] at houtcome
    generalize (store.create input).1 = later at houtcome
    -- the clause was not shared, since the table leads to no clause with other literals
    obtain ⟨short, unknown⟩ : input.literals.length ≤ LiteralSet.capacity ∧
        store.table[store.keyFor input]? = none := by
      cases houtcome with
      | mismatched _ known other =>
        obtain ⟨clause, hget, hkey⟩ := h.tableSound _ _ known
        exact absurd (congrArg ClauseKey.literals hkey) (other clause hget)
      | refused short unknown => exact ⟨short, unknown⟩
      | unlinked short unknown => exact ⟨short, unknown⟩
    have hshort : (canonicalLiterals input.literals).length ≤ LiteralSet.capacity := by
      rwa [length_canonicalLiterals]
    rw [create_eq_createNew short unknown] at hfault
    have hroom : store.size < idBound := by
      refine Nat.lt_of_not_le fun hfull => ?_
      rw [createNew_of_full hfull] at hfault
      cases hfault
    cases hselected : store.selectionFor (canonicalLiterals input.literals) input.selected with
    | error fault =>
      -- a selection stops at a weight, never at a clause
      rw [createNew_of_unselected hroom hselected] at hfault
      cases hfault
      cases store.selectionFor_onlyOverflows hshort input.selected _ hselected
    | ok selected =>
      cases hfirst : input.parents.find? (store.size ≤ ·) with
      | none =>
        have hknown : ∀ parent ∈ input.parents, parent < store.size := by
          simpa using List.find?_eq_none.1 hfirst
        rw [createNew_of_known_parents hroom hselected hknown] at hfault
        cases hfault
      | some first =>
        rw [createNew_of_unknown_parent hroom hselected hfirst] at hfault
        cases hfault
        exact ⟨rfl, short, h.table_eq_none_iff.1 unknown, hroom, ⟨selected, hselected⟩, hfirst⟩
  · rintro ⟨rfl, hmeets⟩
    rw [h.create_of_meetsUnknown hmeets]

/-! ## What is left behind -/

/-- Clauses in the state that a creation leaves when it stops at an unknown parent. -/
theorem get?_atUnknownParent (store : ClauseStore) (input : ClauseInput) (id : ClauseId) :
    (store.atUnknownParent input).get? id = (store.get? id).map fun c =>
      if input.provenance.role = .negatedConjecture ∧ id ∈ input.parents.takeWhile (· < store.size)
      then { c with descendants := insertNew c.descendants store.size }
      else c := by
  rw [atUnknownParent]
  by_cases hrole : input.provenance.role = .negatedConjecture
  · simp only [hrole, if_true, true_and]
    exact getElem?_linkParents_fst store.clauses store.size input.parents id
  · simp [hrole]

/-- Nothing is left behind by a clause that is not a goal, and by a goal whose number the parents in front
of the unknown one list already. -/
theorem atUnknownParent_eq_self_iff :
    store.atUnknownParent input = store ↔ input.provenance.role ≠ .negatedConjecture ∨
      ∀ id ∈ input.parents.takeWhile (· < store.size), ∀ clause, store.get? id = some clause →
        store.size ∈ clause.descendants := by
  constructor
  · intro hsame
    by_contra! hchanged
    obtain ⟨hrole, id, hid, clause, hclause, hmem⟩ := hchanged
    have hget := store.get?_atUnknownParent input id
    rw [hsame, hclause, Option.map_some, if_pos ⟨hrole, hid⟩, Option.some.injEq] at hget
    -- the parent would list the clause that was not made
    rw [hget] at hmem
    exact hmem (mem_insertNew.2 (Or.inr rfl))
  · rintro (hrole | hlisted)
    · rw [atUnknownParent, if_neg hrole]
    · have hclauses : (store.atUnknownParent input).clauses = store.clauses := by
        refine Array.ext_getElem? fun id => ?_
        refine (store.get?_atUnknownParent input id).trans ?_
        cases hclause : store.get? id with
        | none => exact hclause.symm
        | some clause =>
          refine Eq.trans ?_ hclause.symm
          rw [Option.map_some]
          split
          · next hid => rw [insertNew_of_mem (hlisted id hid.2 clause hclause)]
          · rfl
      rw [atUnknownParent] at hclauses ⊢
      split
      · next hrole =>
        rw [if_pos hrole] at hclauses
        dsimp only at hclauses
        rw [hclauses]
      · rfl

/-- **What a creation leaves behind when it stops at an unknown parent.** It got as far as its parents, and
the fault names the first one that is not in the store. Nothing but descendants can have changed; none has
when the clause is not a goal, and exactly the parents in front of the unknown one have gained the number
that the clause would have got when it is one. So the store is as it was just for clauses that are not goals
and for goals whose number those parents list already. -/
theorem create_at_unknown_parent (ordering : TermOrder) (selector : Selector) (calls : List StoreCall)
    {input : ClauseInput} {count : Nat} {index : ClauseId}
    (h : (((new ordering selector).performAll calls).create input).2 =
      .error (.unknownClause count index)) :
    let store := (new ordering selector).performAll calls
    let later := (store.create input).1
    (count = store.size ∧ store.MeetsUnknown input index) ∧
      later = { store with clauses := later.clauses } ∧ later.get? store.size = none ∧
      (∀ id, later.get? id = (store.get? id).map fun c =>
        if input.provenance.role = .negatedConjecture ∧ id ∈ input.parents.takeWhile (· < store.size)
        then { c with descendants := insertNew c.descendants store.size }
        else c) ∧
      (later = store ↔ input.provenance.role ≠ .negatedConjecture ∨
        ∀ id ∈ input.parents.takeWhile (· < store.size), ∀ clause, store.get? id = some clause →
          store.size ∈ clause.descendants) := by
  intro store later
  have hstore : store.WellFormed := wellFormed_performAll (wellFormed_new ordering selector) calls
  obtain ⟨hcount, hmeets⟩ := hstore.create_eq_unknownClause_iff.1 h
  have hlater : later = store.atUnknownParent input := by
    show (store.create input).1 = _
    rw [hstore.create_of_meetsUnknown hmeets]
  have hget := store.get?_atUnknownParent input
  rw [hlater]
  refine ⟨⟨hcount, hmeets⟩, ?_, ?_, hget, atUnknownParent_eq_self_iff⟩
  · rw [atUnknownParent]
    split <;> rfl
  · rw [hget, Option.map_eq_none_iff]
    exact Array.getElem?_eq_none (Nat.le_refl _)

/-- The clause `¬ P`, derived from the trivial clause and from a clause that does not exist. -/
def unfounded (role : ClauseRole) : ClauseInput where
  literals := [.prop (.const 0) false]
  provenance := .input role
  parents := [0, 7, 0]

/-- An axiom with an unknown parent leaves the store as it was. -/
theorem create_at_unknown_parent_axiom :
    let store := (new (.kbo {}) (.preset .none)).performAll []
    (store.create (unfounded .axiomatic)).2 = .error (.unknownClause 1 7) ∧
      (store.create (unfounded .axiomatic)).1 = store := by
  intro store
  have hfault : (store.create (unfounded .axiomatic)).2 = .error (.unknownClause 1 7) := by
    show ((new (.kbo {}) (.preset .none)).create (unfounded .axiomatic)).2 = _
    rw [create_new_eq_createNew _ _ (by decide) (by decide)]
    decide +kernel
  obtain ⟨-, -, -, -, hsame⟩ := create_at_unknown_parent (.kbo {}) (.preset .none) [] hfault
  exact ⟨hfault, hsame.2 (Or.inl (by decide))⟩

/-- A goal with an unknown parent leaves a trace: the trivial clause lists the number 1 as a descendant, and
there is no clause with this number. -/
theorem unmade_descendant_listed :
    let store := new (.kbo {}) (.preset .none)
    let failed := store.create (unfounded .negatedConjecture)
    failed.2 = .error (.unknownClause 1 7) ∧
      (store.get? 0).map (·.descendants) = some [] ∧
      (failed.1.get? 0).map (·.descendants) = some [1] ∧ failed.1.get? 1 = none := by
  intro store failed
  have hfailed : failed = _ := create_new_eq_createNew (.kbo {}) (.preset .none)
    (show (unfounded .negatedConjecture).literals.length ≤ _ by decide) (by decide)
  rw [hfailed, show store = _ from new_eq_createNew (.kbo {}) (.preset .none)]
  decide +kernel

end ClauseStore

end GivenClause
