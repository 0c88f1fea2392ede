import GivenClause.Proofs.Clause.FailedCreations

/-! # Clauses made again in a new epoch

A clause of an earlier epoch can be made again in the current one. Nothing is known about the requests in
between: the clause may have been made again already, and other clauses may have its literals, of this epoch
or of earlier ones. Still the answer depends on the literals alone. It is the clause of the current epoch
with these literals or, where there is none, the next number of the store. It takes three facts about stored
clauses: their literals are canonical, they are short enough, and their parents are in the store. A new
clause also takes a number, and a store that has none left does not make the clause again.

* `ClauseStore.rederive_of_epoch_ne` says what is asked for;
* `ClauseStore.WellFormed.rederive_eq_ok` gives the answer, `ClauseStore.WellFormed.rederive_hasKey` says
  what kind of clause it is and `ClauseStore.WellFormed.rederive_of_hasKey` that it stays the answer;
* `ClauseStore.WellFormed.rederive_eq_error_iff` says when there is no answer;
* `ClauseStore.rederive_performAll` for all runs, and `ClauseStore.rederive_of_all_taken` is a run that takes
  every number. -/

namespace GivenClause

namespace ClauseStore

variable {store later : ClauseStore} {id result : ClauseId} {clause : Clause} {selected : LiteralSet}

/-! ## The request -/

/-- A clause of the current epoch is its own answer. -/
theorem rederive_of_epoch_eq (hget : store.get? id = some clause) (hepoch : clause.epoch = store.epoch) :
    store.rederive id = (store, .ok id) := by
  rw [rederive, get_eq_ok_iff.2 hget]
  exact if_pos hepoch

/-- A clause of another epoch is asked for. -/
theorem rederive_of_epoch_ne (hget : store.get? id = some clause) (hepoch : clause.epoch ≠ store.epoch) :
    store.rederive id = store.create clause.again := by
  rw [rederive, get_eq_ok_iff.2 hget]
  exact if_neg hepoch

theorem hasKey_of_epoch_eq (hget : store.get? id = some clause) (hepoch : clause.epoch = store.epoch) :
    store.HasKey id ⟨clause.literals, store.epoch⟩ := by
  rw [← hepoch]
  exact ⟨clause, hget, rfl⟩

/-- The literals of a stored clause are looked up as they are. -/
theorem keyFor_again (hclause : clause.WellFormed) :
    store.keyFor clause.again = ⟨clause.literals, store.epoch⟩ := by
  rw [keyFor, Clause.again, hclause.canonical]

/-- A stored clause is short enough to be asked for. -/
theorem length_again_le (hclause : clause.WellFormed) :
    clause.again.literals.length ≤ LiteralSet.capacity :=
  hclause.short

/-- Where no clause is known under its key, a stored clause is made from its own literals. -/
theorem create_again_eq_createNew (hclause : clause.WellFormed)
    (hunknown : store.table[(⟨clause.literals, store.epoch⟩ : ClauseKey)]? = none) :
    store.create clause.again = store.createNew clause.again clause.literals := by
  rw [← keyFor_again hclause] at hunknown
  rw [create_eq_createNew (length_again_le hclause) hunknown]
  exact congrArg (store.createNew clause.again) hclause.canonical

/-- Parents are older, hence in the store. -/
theorem Measured.parents_lt_size (h : store.Measured) (hget : store.get? id = some clause) :
    ∀ parent ∈ clause.parents, parent < store.size := by
  intro parent hparent
  have hid : id < store.size := (Array.getElem?_eq_some_iff.1 hget).1
  exact Nat.lt_trans (h.older id clause hget parent hparent) hid

theorem selectionFor_none_eq_ok {literals : List Literal}
    (h : store.selector.select store.ordering literals = .ok selected) :
    store.selectionFor literals none = .ok (selected.truncate literals.length) := by
  rw [selectionFor, h]
  rfl

/-! ## The answer -/

/-- The literals are those of a clause of the current epoch, or can become those of a new clause: there is
a number left, and the literals can be selected. -/
def CanHold (store : ClauseStore) (literals : List Literal) : Prop :=
  (∃ known, store.HasKey known ⟨literals, store.epoch⟩) ∨
    store.size < idBound ∧ ∃ selected, store.selector.select store.ordering literals = .ok selected

namespace WellFormed

/-- A clause with the literals of a stored one that is of the current epoch is the answer. -/
theorem rederive_of_hasKey (h : store.WellFormed) (hget : store.get? id = some clause)
    (hresult : store.HasKey result ⟨clause.literals, store.epoch⟩) :
    (store.rederive id).2 = .ok result := by
  by_cases hepoch : clause.epoch = store.epoch
  · -- both clauses are of the current epoch, so they are the same
    rw [rederive_of_epoch_eq hget hepoch, h.eq_of_hasKey (hasKey_of_epoch_eq hget hepoch) hresult]
  · obtain ⟨known, hknown, hkey⟩ := hresult
    have hclause := h.clauses id clause hget
    rw [rederive_of_epoch_ne hget hepoch,
      h.create_known (length_again_le hclause) hknown (hkey.trans (keyFor_again hclause).symm)]

/-- Without a clause of the current epoch that has the literals, the clause is made from them. -/
theorem rederive_eq_createNew (h : store.WellFormed) (hget : store.get? id = some clause)
    (hunshared : ∀ known, ¬ store.HasKey known ⟨clause.literals, store.epoch⟩) :
    store.rederive id = store.createNew clause.again clause.literals := by
  have hepoch : clause.epoch ≠ store.epoch :=
    fun hepoch => hunshared id (hasKey_of_epoch_eq hget hepoch)
  rw [rederive_of_epoch_ne hget hepoch,
    create_again_eq_createNew (h.clauses id clause hget) (h.table_eq_none_iff.2 hunshared)]

/-- It gets the next number, if there is one and its literals can be selected. -/
theorem rederive_of_unshared (h : store.WellFormed) (hparents : store.Measured)
    (hget : store.get? id = some clause) (hroom : store.size < idBound)
    (hselected : store.selector.select store.ordering clause.literals = .ok selected)
    (hunshared : ∀ known, ¬ store.HasKey known ⟨clause.literals, store.epoch⟩) :
    (store.rederive id).2 = .ok store.size := by
  rw [h.rederive_eq_createNew hget hunshared]
  exact createNew_of_known_parents hroom (selectionFor_none_eq_ok hselected)
    (hparents.parents_lt_size hget)

/-- The answer is determined by the literals: the clause of the current epoch that has them or, where there
is none, the next number. -/
theorem rederive_eq_ok (h : store.WellFormed) (hparents : store.Measured)
    (hget : store.get? id = some clause) (hholds : store.CanHold clause.literals) :
    (store.rederive id).2 =
      .ok (store.table[(⟨clause.literals, store.epoch⟩ : ClauseKey)]?.getD store.size) := by
  cases hentry : store.table[(⟨clause.literals, store.epoch⟩ : ClauseKey)]? with
  | some result => exact h.rederive_of_hasKey hget ((h.table _ result).1 hentry)
  | none =>
    have hunshared := h.table_eq_none_iff.1 hentry
    obtain ⟨known, hknown⟩ | ⟨hroom, selected, hselected⟩ := hholds
    · exact absurd hknown (hunshared known)
    · exact h.rederive_of_unshared hparents hget hroom hselected hunshared

/-- There is no answer exactly when the clause would have to be made and no number is left, or its literals
cannot be selected. A parent never stands in the way. -/
theorem rederive_eq_error_iff (h : store.WellFormed) (hparents : store.Measured)
    (hget : store.get? id = some clause) {fault : Fault} :
    (store.rederive id).2 = .error fault ↔
      (∀ known, ¬ store.HasKey known ⟨clause.literals, store.epoch⟩) ∧
        (store.size = idBound ∧ fault = .idsExhausted ∨
          store.size < idBound ∧
            store.selector.select store.ordering clause.literals = .error fault) := by
  by_cases hshared : ∃ known, store.HasKey known ⟨clause.literals, store.epoch⟩
  · obtain ⟨known, hknown⟩ := hshared
    rw [h.rederive_of_hasKey hget hknown]
    exact iff_of_false (by simp) fun hnone => hnone.1 known hknown
  · have hunshared := not_exists.1 hshared
    rw [h.rederive_eq_createNew hget hunshared, and_iff_right hunshared]
    obtain hfull | hroom := Nat.eq_or_lt_of_le h.bounded
    · -- the number is asked for before the literals are selected
      rw [createNew_of_full (Nat.le_of_eq hfull.symm)]
      simp [hfull, eq_comm]
    · cases hselected : store.selector.select store.ordering clause.literals with
      | ok selected =>
        rw [createNew_of_known_parents hroom (selectionFor_none_eq_ok hselected)
          (hparents.parents_lt_size hget)]
        simp [Nat.ne_of_lt hroom]
      | error fault' =>
        have hselection : store.selectionFor clause.literals clause.again.selected = .error fault' := by
          rw [Clause.again, selectionFor, hselected]
          rfl
        rw [createNew_of_unselected hroom hselection]
        simp [Nat.ne_of_lt hroom, hroom]

/-- The answer is a clause of the current epoch with the same literals. -/
theorem rederive_hasKey (h : store.WellFormed) (hget : store.get? id = some clause)
    (hrederive : store.rederive id = (later, .ok result)) :
    later.HasKey result ⟨clause.literals, store.epoch⟩ := by
  by_cases hepoch : clause.epoch = store.epoch
  · rw [rederive_of_epoch_eq hget hepoch] at hrederive
    cases hrederive
    exact hasKey_of_epoch_eq hget hepoch
  · have hclause := h.clauses id clause hget
    rw [rederive_of_epoch_ne hget hepoch] at hrederive
    have houtcome := store.create_outcome clause.again
    rw [hrederive] at houtcome
    -- a creation enters its answer in the table, under the key that it looked up
    have hentry := houtcome.getElem?_keyFor (length_again_le hclause)
    rw [keyFor_again hclause] at hentry
    exact ((houtcome.wellFormed h).table _ result).1 hentry

end WellFormed

/-- Neither making a clause again nor what it leaves in between is a change of epoch. -/
theorem epoch_rederive (store : ClauseStore) (id : ClauseId) :
    (store.rederive id).1.epoch = store.epoch := by
  have houtcome := store.rederive_outcome id
  generalize (store.rederive id).1 = later at houtcome ⊢
  generalize (store.rederive id).2 = result at houtcome
  cases houtcome with
  | unknown => rfl
  | current => rfl
  | again => exact (store.create_outcome _).settings_eq.2.2

/-- The clause that answers a request is found again by every clause with its literals, as long as the epoch
does not change. -/
theorem Extends.rederive_eq (hextends : store.Extends later) (hlater : later.WellFormed)
    (hepoch : later.epoch = store.epoch) (hget : store.get? id = some clause)
    (hresult : later.HasKey result ⟨clause.literals, store.epoch⟩) :
    (later.rederive id).2 = .ok result := by
  obtain ⟨clause', hget', hcontinues⟩ := hextends.continues id clause hget
  refine hlater.rederive_of_hasKey hget' ?_
  rw [hcontinues.literals_eq, hepoch]
  exact hresult

/-- **Making a clause again is a move into the current epoch.** After any calls, for every clause of the
store: the request stops just where no clause of the current epoch has its literals and either every number
is taken or selecting the literals stops. Otherwise the answer is a clause with the same literals and the
current epoch, the clause itself with the store unchanged if that is its epoch. Asking for the answer again
changes nothing. Every clause with the same literals, of whatever epoch, has the same answer, both when it is
asked for instead and when it is asked for after any further calls in the same epoch. -/
theorem rederive_performAll (ordering : TermOrder) (selector : Selector) (calls : List StoreCall)
    {id : ClauseId} {clause : Clause}
    (hget : ((new ordering selector).performAll calls).get? id = some clause) :
    let store := (new ordering selector).performAll calls
    (∀ fault, (store.rederive id).2 = .error fault ↔
      (∀ known, ¬ store.HasKey known ⟨clause.literals, store.epoch⟩) ∧
        (store.size = idBound ∧ fault = .idsExhausted ∨
          store.size < idBound ∧
            store.selector.select store.ordering clause.literals = .error fault)) ∧
    (store.CanHold clause.literals →
      ∃ later result copy, store.rederive id = (later, .ok result) ∧
        later.get? result = some copy ∧ copy.literals = clause.literals ∧ copy.epoch = store.epoch ∧
        later.epoch = store.epoch ∧
        (clause.epoch = store.epoch → result = id ∧ later = store) ∧
        later.rederive result = (later, .ok result) ∧
        ∀ other twin, store.get? other = some twin → twin.literals = clause.literals →
          (store.rederive other).2 = .ok result ∧
          ∀ after, (later.performAll after).epoch = store.epoch →
            ((later.performAll after).rederive other).2 = .ok result) := by
  intro store
  have hstore : store.WellFormed := wellFormed_performAll (wellFormed_new ordering selector) calls
  have hmeasured : store.Measured := (measured_new ordering selector).performAll calls
  refine ⟨fun fault => hstore.rederive_eq_error_iff hmeasured hget, fun hholds => ?_⟩
  have hanswer := hstore.rederive_eq_ok hmeasured hget hholds
  obtain ⟨later, result, hrederive⟩ : ∃ later result, store.rederive id = (later, .ok result) :=
    ⟨_, _, Prod.ext rfl hanswer⟩
  have hkey := hstore.rederive_hasKey hget hrederive
  have hepoch : later.epoch = store.epoch := by
    rw [← store.epoch_rederive id, hrederive]
  have hcall : later = (store.perform (.rederive id)).1 := by
    show later = (store.rederive id).1
    rw [hrederive]
  have hlater : later.WellFormed := hcall ▸ hstore.perform (.rederive id)
  have hextends : store.Extends later := hcall ▸ store.extends_perform (.rederive id)
  obtain ⟨copy, hcopy, hcopyKey⟩ := hkey
  have hcopyEpoch : copy.epoch = store.epoch := congrArg ClauseKey.epoch hcopyKey
  refine ⟨later, result, copy, hrederive, hcopy, congrArg ClauseKey.literals hcopyKey, hcopyEpoch, hepoch,
    ?_, rederive_of_epoch_eq hcopy (hcopyEpoch.trans hepoch.symm), ?_⟩
  · intro hcurrent
    rw [rederive_of_epoch_eq hget hcurrent] at hrederive
    cases hrederive
    exact ⟨rfl, rfl⟩
  · intro other twin htwin hliterals
    constructor
    · rw [hrederive] at hanswer
      rw [hstore.rederive_eq_ok hmeasured htwin (hliterals.symm ▸ hholds), hliterals]
      exact hanswer.symm
    · intro after hafter
      have hrun := later.extends_performAll after
      refine (hextends.trans hrun).rederive_eq (wellFormed_performAll hlater after) hafter htwin ?_
      rw [hliterals]
      exact HasKey.of_extends ⟨copy, hcopy, hcopyKey⟩ hrun

/-- A store with `P(x)` and `P(a)`, in which the selection strategy was exchanged. -/
def reselectedStore : ClauseStore :=
  (oneInstanceStore.setSelector (.preset .negMaxWeight)).1

theorem reselectedStore_eq : (new (.kbo {}) (.preset .none)).performAll
    [.create everyInstance, .create oneInstance, .setSelector (.preset .negMaxWeight)] = reselectedStore := by
  have hwell := wellFormed_performAll (wellFormed_new (.kbo {}) (.preset .none))
  have hfirst : (new (.kbo {}) (.preset .none)).perform (.create everyInstance) =
      (everyInstanceStore, .ok ()) := by
    have hok := (hwell []).perform_create everyInstance 1 (by decide)
    simp only [performAll, new_eq_createNew] at hok ⊢
    exact hok (by decide +kernel) (by decide +kernel)
  have hsecond : everyInstanceStore.perform (.create oneInstance) = (oneInstanceStore, .ok ()) := by
    have hstore := hwell [.create everyInstance]
    simp only [performAll, hfirst] at hstore
    exact hstore.perform_create oneInstance 2 (by decide) (by decide +kernel) (by decide +kernel)
  simp only [performAll, hfirst, hsecond]
  rfl

/-- The clause `P(a)` with its parent `P(x)` is made again under a new strategy: it gets the next number, and
asking for the old clause once more gives the same. -/
theorem rederive_performAll_oneInstance :
    let store := (new (.kbo {}) (.preset .none)).performAll
      [.create everyInstance, .create oneInstance, .setSelector (.preset .negMaxWeight)]
    (store.get? 2).map (·.epoch) = some 0 ∧ store.epoch = 1 ∧
      ∃ later copy, store.rederive 2 = (later, .ok 3) ∧ later.get? 3 = some copy ∧
        copy.literals = oneInstance.literals ∧ copy.epoch = 1 ∧
        later.rederive 3 = (later, .ok 3) ∧ (later.rederive 2).2 = .ok 3 := by
  intro store
  have hstore : store = reselectedStore := reselectedStore_eq
  obtain ⟨clause, hget, hliterals, hselected⟩ : ∃ clause, store.get? 2 = some clause ∧
      clause.literals = oneInstance.literals ∧
      store.selector.select store.ordering clause.literals = .ok .empty := by
    rw [hstore]
    exact ⟨_, rfl, rfl, rfl⟩
  have hcurrent : store.epoch = 1 := by
    rw [hstore]
    rfl
  have hsize : store.size = 3 := by
    rw [hstore]
    rfl
  have hroom : store.size < idBound := by
    rw [hsize]
    decide
  obtain ⟨later, result, copy, hrederive, hcopy, hsame, hepoch, hepoch', -, hagain, htwin⟩ :=
    (rederive_performAll (.kbo {}) (.preset .none) _ hget).2 (Or.inr ⟨hroom, _, hselected⟩)
  -- no clause of the new epoch was made yet
  have hold : ∀ c ∈ store.clauses.toList, c.epoch ≠ store.epoch := by
    rw [hstore]
    decide +kernel
  have hunshared : ∀ i, ¬ store.HasKey i ⟨clause.literals, store.epoch⟩ := by
    rintro i ⟨c, hc, hkey⟩
    exact hold c (Array.mem_toList_iff.2 (Array.mem_of_getElem? hc)) (congrArg ClauseKey.epoch hkey)
  have hresult : (store.rederive 2).2 = .ok store.size :=
    (wellFormed_performAll (wellFormed_new (.kbo {}) (.preset .none)) _).rederive_of_unshared
      ((measured_new (.kbo {}) (.preset .none)).performAll _) hget hroom hselected hunshared
  rw [hrederive, hsize] at hresult
  cases hresult
  refine ⟨?_, hcurrent, later, copy, hrederive, hcopy, hsame.trans hliterals, hepoch.trans hcurrent, hagain,
    (htwin 2 clause hget rfl).2 [] hepoch'⟩
  rw [hstore]
  rfl

/-! ## Without numbers left -/

/-- The request for a clause with one atom, the constant `n`. -/
def atomClause (n : Nat) : ClauseInput where
  literals := [.prop (.const n) true]
  provenance := .input .axiomatic

/-- A store of the first epoch that selects nothing and holds `n` clauses besides the trivial one, the atoms
from `n` on not among them. -/
structure HoldsAtoms (n : Nat) (store : ClauseStore) : Prop where
  /-- The parts of the store fit together. -/
  wellFormed : store.WellFormed
  /-- The trivial clause and `n` more. -/
  size_eq : store.size = n + 1
  /-- No setting was exchanged. -/
  epoch_eq : store.epoch = 0
  /-- Nothing is selected. -/
  selector_eq : store.selector = .preset .none
  /-- All clauses are of the first epoch. -/
  first : ∀ clause ∈ store.clauses, clause.epoch = 0
  /-- The atoms from `n` on are still to come. -/
  below : ∀ clause ∈ store.clauses, ∀ i, clause.literals = (atomClause i).literals → i < n

theorem holdsAtoms_new : HoldsAtoms 0 (new (.kbo {}) (.preset .none)) := by
  obtain ⟨clause, hclauses, hliterals, hepoch⟩ : ∃ clause,
      (new (.kbo {}) (.preset .none)).clauses = #[clause] ∧ clause.literals = [.verum] ∧
        clause.epoch = 0 := by
    rw [new_eq_createNew]
    exact ⟨_, rfl, rfl, rfl⟩
  refine ⟨wellFormed_new _ _, ?_, ?_, ?_, ?_, ?_⟩
  · rw [size, hclauses]
    rfl
  · rw [new_eq_createNew]
    rfl
  · rw [new_eq_createNew]
    rfl
  · simpa [hclauses] using hepoch
  · simp [hclauses, hliterals, atomClause]

/-- The next atom takes the next number. -/
theorem HoldsAtoms.create {n : Nat} (h : HoldsAtoms n store) (hroom : n + 1 < idBound) :
    HoldsAtoms (n + 1) (store.create (atomClause n)).1 := by
  have hunknown : store.table[store.keyFor (atomClause n)]? = none := by
    refine h.wellFormed.table_eq_none_iff.2 ?_
    rintro id ⟨clause, hget, hkey⟩
    exact Nat.lt_irrefl n
      (h.below clause (Array.mem_of_getElem? hget) n (congrArg ClauseKey.literals hkey))
  have hid : store.nextId = .ok store.size := nextId_eq_ok_iff.2 ⟨h.size_eq ▸ hroom, rfl⟩
  -- without parents a new clause changes nothing but the end of the list
  obtain ⟨clause, hclauses, hliterals, hepoch⟩ : ∃ clause,
      (store.create (atomClause n)).1.clauses = store.clauses.push clause ∧
        clause.literals = (atomClause n).literals ∧ clause.epoch = store.epoch := by
    rw [create_eq_createNew (Nat.le_of_ble_eq_true rfl) hunknown, createNew, hid]
    simp only [selectionFor, h.selector_eq]
    exact ⟨_, rfl, rfl, rfl⟩
  obtain ⟨-, hselector, hsame⟩ := (store.create_outcome (atomClause n)).settings_eq
  refine ⟨(store.create_outcome _).wellFormed h.wellFormed, ?_, hsame.trans h.epoch_eq,
    hselector.trans h.selector_eq, ?_, ?_⟩
  · rw [size, hclauses, Array.size_push, ← size, h.size_eq]
  · intro c hc
    obtain hold | rfl := Array.mem_push.1 (hclauses ▸ hc)
    · exact h.first c hold
    · exact hepoch.trans h.epoch_eq
  · intro c hc i hi
    obtain hold | rfl := Array.mem_push.1 (hclauses ▸ hc)
    · exact Nat.lt_succ_of_lt (h.below c hold i hi)
    · have hsame : n = i := by simpa [atomClause] using hliterals.symm.trans hi
      exact hsame ▸ Nat.lt_succ_self n

/-- The calls that make the first `n` atoms. -/
def atomCalls (n : Nat) : List StoreCall :=
  (List.range n).map fun i => .create (atomClause i)

/-- As long as there are numbers, one clause after the other is made. -/
theorem holdsAtoms_performAll {n : Nat} (hn : n < idBound) :
    HoldsAtoms n ((new (.kbo {}) (.preset .none)).performAll (atomCalls n)) := by
  -- by induction on the number of calls, none of which is ever evaluated
  induction n with
  | zero => exact holdsAtoms_new
  | succ n ih =>
    rw [atomCalls, List.range_succ, List.map_append, performAll_append]
    exact (ih (Nat.lt_of_succ_lt hn)).create hn

/-- In the next epoch a store without numbers left makes no clause again. -/
theorem HoldsAtoms.rederive_of_full {n : Nat} (h : HoldsAtoms n store) (hfull : n + 1 = idBound) :
    let later := (store.perform (.setSelector (.preset .none))).1
    (∃ clause, later.get? trivial = some clause ∧
      later.selector.select later.ordering clause.literals = .ok .empty) ∧
    later.rederive trivial = (later, .error .idsExhausted) := by
  intro later
  have hlater : later = { store with selector := .preset .none, epoch := 1 } := by
    show (nextEpoch _).1 = _
    rw [nextEpoch]
    simp only [h.epoch_eq]
    rfl
  obtain ⟨clause, hget⟩ : ∃ clause, later.get? trivial = some clause := by
    rw [hlater]
    exact store.exists_get? (by rw [h.size_eq]; exact Nat.succ_pos n)
  refine ⟨⟨clause, hget, by rw [hlater]; rfl⟩, ?_⟩
  have hunshared : ∀ known, ¬ later.HasKey known ⟨clause.literals, later.epoch⟩ := by
    rintro known ⟨c, hc, hkey⟩
    -- all clauses are of the epoch before
    rw [hlater] at hc hkey
    have hfirst := h.first c (Array.mem_of_getElem? hc)
    have hsecond : c.epoch = 1 := congrArg ClauseKey.epoch hkey
    omega
  have hsize : later.size = idBound := by
    rw [hlater, ← hfull, ← h.size_eq]
    rfl
  rw [(h.wellFormed.perform _).rederive_eq_createNew hget hunshared,
    createNew_of_full (Nat.le_of_eq hsize.symm)]

/-- **A full store makes no clause again.** One clause is made for every number, then the selector is
exchanged. The trivial clause is in the store and its literals can be selected, but asking for it in the new
epoch stops, since no number is left. -/
theorem rederive_of_all_taken :
    let store := (new (.kbo {}) (.preset .none)).performAll
      (atomCalls (idBound - 1) ++ [.setSelector (.preset .none)])
    (∃ clause, store.get? trivial = some clause ∧
      store.selector.select store.ordering clause.literals = .ok .empty) ∧
    store.rederive trivial = (store, .error .idsExhausted) := by
  have hone : 1 ≤ idBound := by decide
  have hfilled := holdsAtoms_performAll (Nat.sub_one_lt_of_le hone (Nat.le_refl idBound))
  have hfull := hfilled.rederive_of_full (Nat.sub_add_cancel hone)
  rwa [← performAll_concat] at hfull

end ClauseStore

end GivenClause
