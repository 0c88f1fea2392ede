import GivenClause.Clause.Calls

/-! # Runs of a clause store

A store changes by calls. Whatever the calls are, and also where one of them stops with a fault, a clause
that is in the store stays there and only its list of descendants grows.

* `CreateOutcome` lists what one creation can do, `ClauseStore.create_outcome` says that this is all;
* `InstanceOutcome` and `RederiveOutcome` do the same for the two calls that end in a creation;
* `ClauseStore.Extends` relates a store to its later states;
* `ClauseStore.performAll` are runs, `ClauseStore.extends_performAll` says what they keep. -/

namespace GivenClause

open InsertionOrder

/-! ## Later states of clauses and stores -/

/-- A later state of the same clause: nothing but the list of descendants differs, and that list has
grown at its end. -/
structure Clause.Continues (clause later : Clause) : Prop where
  /-- Only the descendants may differ. -/
  same : later = { clause with descendants := later.descendants }
  /-- No descendant is lost or moved. -/
  grown : clause.descendants <+: later.descendants

namespace Clause.Continues

theorem refl (clause : Clause) : clause.Continues clause :=
  ⟨rfl, List.prefix_rfl⟩

theorem trans {a b c : Clause} (hab : a.Continues b) (hbc : b.Continues c) : a.Continues c := by
  refine ⟨?_, hab.grown.trans hbc.grown⟩
  rw [hbc.same, hab.same]

/-- More descendants are a later state. -/
theorem ofPrefix (clause : Clause) {descendants : List ClauseId}
    (h : clause.descendants <+: descendants) : clause.Continues { clause with descendants } :=
  ⟨rfl, h⟩

theorem literals_eq {clause later : Clause} (h : clause.Continues later) :
    later.literals = clause.literals := by
  rw [h.same]

theorem epoch_eq {clause later : Clause} (h : clause.Continues later) :
    later.epoch = clause.epoch := by
  rw [h.same]

theorem id_eq {clause later : Clause} (h : clause.Continues later) : later.id = clause.id := by
  rw [h.same]

end Clause.Continues

/-- A later list of the same clauses, position by position. -/
structure ClausesContinue (clauses later : Array Clause) : Prop where
  /-- No clause is added. -/
  size_eq : later.size = clauses.size
  /-- Every clause is there in a later state. -/
  continues : ∀ (i : Nat) (clause : Clause), clauses[i]? = some clause →
    ∃ clause', later[i]? = some clause' ∧ clause.Continues clause'

namespace ClausesContinue

theorem refl (clauses : Array Clause) : ClausesContinue clauses clauses :=
  ⟨rfl, fun _ clause h => ⟨clause, h, .refl clause⟩⟩

theorem trans {a b c : Array Clause} (hab : ClausesContinue a b) (hbc : ClausesContinue b c) :
    ClausesContinue a c := by
  refine ⟨hbc.size_eq.trans hab.size_eq, ?_⟩
  intro i clause h
  obtain ⟨clause', h', hc⟩ := hab.continues i clause h
  obtain ⟨clause'', h'', hc'⟩ := hbc.continues i clause' h'
  exact ⟨clause'', h'', hc.trans hc'⟩

/-- Growing the descendants of one clause. -/
theorem modify (clauses : Array Clause) (i : Nat) (f : List ClauseId → List ClauseId)
    (hf : ∀ descendants, descendants <+: f descendants) :
    ClausesContinue clauses
      (clauses.modify i fun c => { c with descendants := f c.descendants }) := by
  refine ⟨Array.size_modify, ?_⟩
  intro j clause h
  rw [Array.getElem?_modify]
  split
  · rw [h, Option.map_some]
    exact ⟨_, rfl, .ofPrefix clause (hf clause.descendants)⟩
  · exact ⟨clause, h, .refl clause⟩

/-- A clause of the later list is a later state of the clause at its position. -/
theorem of_getElem? {clauses later : Array Clause} (h : ClausesContinue clauses later) {i : Nat}
    {clause' : Clause} (hi : later[i]? = some clause') :
    ∃ clause, clauses[i]? = some clause ∧ clause.Continues clause' := by
  obtain ⟨hlt, -⟩ := Array.getElem?_eq_some_iff.1 hi
  rw [h.size_eq] at hlt
  obtain ⟨later', hlater, hc⟩ := h.continues i clauses[i] (Array.getElem?_eq_getElem hlt)
  rw [hi] at hlater
  cases hlater
  exact ⟨clauses[i], Array.getElem?_eq_getElem hlt, hc⟩

end ClausesContinue

/-- Linking a new clause to its parents only adds descendants, also when it stops at an unknown
parent. -/
theorem ClauseStore.linkParents_continue (id : ClauseId) (parents : List ClauseId)
    (clauses : Array Clause) : ClausesContinue clauses (linkParents clauses id parents).1 := by
  induction parents generalizing clauses with
  | nil => exact .refl clauses
  | cons parent parents ih =>
    rw [linkParents]
    split
    · exact (ClausesContinue.modify clauses parent (insertNew · id)
        (isPrefix_insertNew · id)).trans (ih _)
    · exact .refl clauses

theorem ClauseStore.get_eq_ok_iff {store : ClauseStore} {id : ClauseId} {clause : Clause} :
    store.get id = .ok clause ↔ store.get? id = some clause := by
  rw [get]
  split <;> simp [*]

/-- A later state of a store: every clause is still there, in a later state of its own. -/
structure ClauseStore.Extends (store later : ClauseStore) : Prop where
  /-- No clause is lost. -/
  size_le : store.size ≤ later.size
  /-- Every clause is there in a later state. -/
  continues : ∀ id clause, store.get? id = some clause →
    ∃ clause', later.get? id = some clause' ∧ clause.Continues clause'

namespace ClauseStore

namespace Extends

theorem refl (store : ClauseStore) : store.Extends store :=
  ⟨Nat.le_refl _, fun _ clause h => ⟨clause, h, .refl clause⟩⟩

theorem trans {a b c : ClauseStore} (hab : a.Extends b) (hbc : b.Extends c) : a.Extends c := by
  refine ⟨Nat.le_trans hab.size_le hbc.size_le, ?_⟩
  intro id clause h
  obtain ⟨clause', h', hc⟩ := hab.continues id clause h
  obtain ⟨clause'', h'', hc'⟩ := hbc.continues id clause' h'
  exact ⟨clause'', h'', hc.trans hc'⟩

/-- No clause is lost. -/
theorem exists_get? {store later : ClauseStore} (h : store.Extends later) {id : ClauseId}
    (hid : ∃ clause, store.get? id = some clause) : ∃ clause, later.get? id = some clause := by
  obtain ⟨clause, hget⟩ := hid
  obtain ⟨clause', hget', -⟩ := h.continues id clause hget
  exact ⟨clause', hget'⟩

/-- Only the clauses of a store matter for what extends it. -/
theorem ofClauses {store later : ClauseStore}
    (h : ClausesContinue store.clauses later.clauses) : store.Extends later :=
  ⟨Nat.le_of_eq h.size_eq.symm, h.continues⟩

/-- A new clause at the end extends a store. -/
theorem ofPush {store later : ClauseStore} {clauses : Array Clause} {clause : Clause}
    (h : ClausesContinue store.clauses clauses) (hlater : later.clauses = clauses.push clause) :
    store.Extends later := by
  refine ⟨?_, ?_⟩
  · rw [size, size, hlater, Array.size_push, h.size_eq]
    exact Nat.le_succ _
  · intro id old hold
    obtain ⟨old', hold', hc⟩ := h.continues id old hold
    obtain ⟨hlt, -⟩ := Array.getElem?_eq_some_iff.1 hold'
    refine ⟨old', ?_, hc⟩
    rw [get?, hlater, Array.getElem?_push_lt hlt, ← Array.getElem?_eq_getElem hlt]
    exact hold'

end Extends

/-! ## What a creation does -/

/-- What a creation looks up: the canonical literals in the current epoch. -/
def keyFor (store : ClauseStore) (input : ClauseInput) : ClauseKey :=
  ⟨canonicalLiterals input.literals, store.epoch⟩

/-- The clause that a creation puts at the end of a store. -/
def clauseFor (store : ClauseStore) (input : ClauseInput) (selected : LiteralSet)
    (distance : Option Nat) : Clause where
  id := store.size
  literals := canonicalLiterals input.literals
  selected := selected
  flags := ClauseFlags.of (literalVariables (canonicalLiterals input.literals)) input.provenance
  weight := literalsWeight (canonicalLiterals input.literals)
  vars := literalVariables (canonicalLiterals input.literals)
  parents := input.parents
  descendants := []
  provenance := input.provenance
  distance := distance
  epoch := store.epoch

/-- The next number is that of clauses so far, as long as there is one. -/
theorem nextId_eq_ok_iff {store : ClauseStore} {id : ClauseId} :
    store.nextId = .ok id ↔ store.size < idBound ∧ id = store.size := by
  rw [nextId]
  split
  · next room => simp [room, eq_comm]
  · next full => simp [full]

theorem nextId_eq_error_iff {store : ClauseStore} {fault : Fault} :
    store.nextId = .error fault ↔ idBound ≤ store.size ∧ fault = .idsExhausted := by
  rw [nextId]
  split
  · next room => simp [Nat.not_le.2 room]
  · next full => simp [Nat.not_lt.1 full, eq_comm]

/-- Why a creation that finds no clause may stop before it changes anything: there is no number left, or
the selection or the distance of a parent faults. -/
def RefusedBy (store : ClauseStore) (input : ClauseInput) (fault : Fault) : Prop :=
  store.nextId = .error fault ∨
    store.selectionFor (canonicalLiterals input.literals) input.selected = .error fault ∨
    store.distanceFor input.provenance.role input.parents = .error fault

/-- Everything that a creation can do: the store it leaves and its result. -/
inductive CreateOutcome (store : ClauseStore) (input : ClauseInput) :
    ClauseStore → Except Fault ClauseId → Prop where
  /-- Too many literals: the trivial clause stands for the clause. -/
  | oversized (long : LiteralSet.capacity < input.literals.length) :
    CreateOutcome store input
      { store with
        incomplete := true
        stats := { store.stats with oversized := store.stats.oversized + 1 } }
      (.ok trivial)
  /-- The clause is known. -/
  | shared (short : input.literals.length ≤ LiteralSet.capacity) {id : ClauseId} {clause : Clause}
    (known : store.table[store.keyFor input]? = some id) (found : store.get? id = some clause)
    (same : clause.literals = canonicalLiterals input.literals) :
    CreateOutcome store input
      { store with stats := { store.stats with hits := store.stats.hits + 1 } }
      (.ok id)
  /-- The table leads to a clause with other literals, or to none. -/
  | mismatched (short : input.literals.length ≤ LiteralSet.capacity) {id : ClauseId}
    (known : store.table[store.keyFor input]? = some id)
    (other : ∀ clause, store.get? id = some clause →
      clause.literals ≠ canonicalLiterals input.literals)
    (fault : Fault) : CreateOutcome store input store (.error fault)
  /-- The clause is not known and cannot be made. -/
  | refused (short : input.literals.length ≤ LiteralSet.capacity)
    (unknown : store.table[store.keyFor input]? = none) {fault : Fault}
    (cause : store.RefusedBy input fault) : CreateOutcome store input store (.error fault)
  /-- A parent is not in the store; those before it have gained a descendant. -/
  | unlinked (short : input.literals.length ≤ LiteralSet.capacity)
    (unknown : store.table[store.keyFor input]? = none) {clauses : Array Clause} {fault : Fault}
    (links : linkParents store.clauses store.size input.parents = (clauses, some fault)) :
    CreateOutcome store input { store with clauses } (.error fault)
  /-- The clause is made. -/
  | made (short : input.literals.length ≤ LiteralSet.capacity)
    (unknown : store.table[store.keyFor input]? = none) (room : store.size < idBound)
    {selected : LiteralSet} {distance : Option Nat} {clauses : Array Clause}
    (selection : store.selectionFor (canonicalLiterals input.literals) input.selected =
      .ok selected)
    (nearest : store.distanceFor input.provenance.role input.parents = .ok distance)
    (links : linkParents store.clauses store.size input.parents = (clauses, none)) :
    CreateOutcome store input
      { store with
        clauses := clauses.push (store.clauseFor input selected distance)
        table := store.table.insert (store.keyFor input) store.size
        stats := { store.stats with created := store.stats.created + 1 } }
      (.ok store.size)

/-- Making a clause that is not known has one of the last three outcomes. -/
theorem createNew_outcome (store : ClauseStore) (input : ClauseInput)
    (short : input.literals.length ≤ LiteralSet.capacity)
    (unknown : store.table[store.keyFor input]? = none) :
    CreateOutcome store input (store.createNew input (canonicalLiterals input.literals)).1
      (store.createNew input (canonicalLiterals input.literals)).2 := by
  rw [createNew]
  split
  · next fault hid => exact .refused short unknown (Or.inl hid)
  · next id hid =>
    obtain ⟨room, rfl⟩ := nextId_eq_ok_iff.1 hid
    split
    · next fault hselected => exact .refused short unknown (Or.inr (Or.inl hselected))
    · next selected hselected =>
      split
      · next fault hdistance => exact .refused short unknown (Or.inr (Or.inr hdistance))
      · next distance hdistance =>
        split
        · next clauses fault hlinks => exact .unlinked short unknown hlinks
        · next clauses hlinks => exact .made short unknown room hselected hdistance hlinks

/-- A creation has one of the listed outcomes. -/
theorem create_outcome (store : ClauseStore) (input : ClauseInput) :
    CreateOutcome store input (store.create input).1 (store.create input).2 := by
  rw [create]
  split
  · next long => exact .oversized long
  · next long =>
    have short := Nat.le_of_not_lt long
    dsimp only
    split
    · next id known =>
      unfold get
      cases found : store.get? id with
      | none => exact .mismatched short known (by simp [found]) _
      | some clause =>
        dsimp only
        split
        · next same => exact .shared short known found same
        · next other =>
          refine .mismatched short known ?_ _
          intro clause' found'
          rw [found, Option.some.injEq] at found'
          exact found' ▸ other
    · next unknown => exact store.createNew_outcome input short unknown

/-- A clause that is not known is made. -/
theorem create_eq_createNew {store : ClauseStore} {input : ClauseInput}
    (short : input.literals.length ≤ LiteralSet.capacity)
    (unknown : store.table[store.keyFor input]? = none) :
    store.create input = store.createNew input (canonicalLiterals input.literals) := by
  rw [keyFor] at unknown
  rw [create, if_neg (Nat.not_lt.2 short)]
  dsimp only
  rw [unknown]

/-- A new store holds one clause, made when nothing was known. -/
theorem new_eq_createNew (ordering : TermOrder) (selector : Selector) :
    new ordering selector = ((bare ordering selector).createNew
      { literals := [.verum], provenance := (Provenance.input .axiomatic).persist } [.verum]).1 := by
  rw [new, create_eq_createNew (by decide) Std.HashMap.getElem?_empty]
  rfl

/-- A new store knows the trivial clause and no other. -/
theorem getElem?_table_new {ordering : TermOrder} {selector : Selector} {key : ClauseKey}
    (h : key ≠ ⟨[.verum], 0⟩) : (new ordering selector).table[key]? = none := by
  have houtcome := (bare ordering selector).create_outcome
    { literals := [.verum], provenance := (Provenance.input .axiomatic).persist }
  rw [new]
  generalize (create _ _).1 = store at houtcome ⊢
  generalize (create _ _).2 = result at houtcome
  cases houtcome with
  | made =>
    show (Std.HashMap.insert ∅ _ _)[key]? = none
    rw [Std.HashMap.getElem?_insert, if_neg, Std.HashMap.getElem?_empty]
    rw [beq_iff_eq]
    exact h.symm
  | _ => exact Std.HashMap.getElem?_empty

/-- Any other clause than the trivial one is made when it is first asked for. -/
theorem create_new_eq_createNew (ordering : TermOrder) (selector : Selector) {input : ClauseInput}
    (short : input.literals.length ≤ LiteralSet.capacity)
    (other : canonicalLiterals input.literals ≠ [.verum]) :
    (new ordering selector).create input = ((bare ordering selector).createNew
      { literals := [.verum], provenance := (Provenance.input .axiomatic).persist }
      [.verum]).1.createNew input (canonicalLiterals input.literals) := by
  have unknown : (new ordering selector).table[(new ordering selector).keyFor input]? = none :=
    getElem?_table_new fun heq => other (congrArg ClauseKey.literals heq)
  rw [create_eq_createNew short unknown, new_eq_createNew]

/-- Making a clause changes the table under its own key only. -/
theorem getElem?_table_createNew {store : ClauseStore} {input : ClauseInput} {literals : List Literal}
    {key : ClauseKey} (h : key ≠ ⟨literals, store.epoch⟩) :
    (store.createNew input literals).1.table[key]? = store.table[key]? := by
  rw [createNew]
  split
  · rfl
  · split
    · rfl
    · split
      · rfl
      · split
        · rfl
        · rw [Std.HashMap.getElem?_insert, if_neg]
          rw [beq_iff_eq]
          exact h.symm

/-- Every outcome of a creation extends the store. -/
theorem CreateOutcome.extends {store store' : ClauseStore} {input : ClauseInput}
    {result : Except Fault ClauseId} (h : CreateOutcome store input store' result) :
    store.Extends store' := by
  cases h with
  | oversized => exact .ofClauses (.refl _)
  | shared => exact .ofClauses (.refl _)
  | mismatched => exact .refl store
  | refused => exact .refl store
  | @unlinked _ _ clauses fault links =>
    have h := linkParents_continue store.size input.parents store.clauses
    rw [links] at h
    exact .ofClauses h
  | @made _ _ _ selected distance clauses _ _ links =>
    have h := linkParents_continue store.size input.parents store.clauses
    rw [links] at h
    exact .ofPush h rfl

/-- No outcome of a creation changes the ordering, the selector or the epoch. -/
theorem CreateOutcome.settings_eq {store store' : ClauseStore} {input : ClauseInput}
    {result : Except Fault ClauseId} (h : CreateOutcome store input store' result) :
    store'.ordering = store.ordering ∧ store'.selector = store.selector ∧
      store'.epoch = store.epoch := by
  cases h <;> exact ⟨rfl, rfl, rfl⟩

end ClauseStore

/-! ## Calls that end in a creation -/

/-- What is asked for when a clause is instantiated. -/
def Clause.asInstance (clause : Clause) (id : ClauseId) (σ : Substitution) (scope : Nat) :
    ClauseInput where
  literals := (instantiateLiterals σ scope {} clause.literals).1
  provenance := { clause.provenance with rule := "instantiate" }
  parents := [id]

/-- What is asked for when a clause is made again. -/
def Clause.again (clause : Clause) : ClauseInput where
  literals := clause.literals
  provenance := clause.provenance
  parents := clause.parents

namespace ClauseStore

/-- Everything that instantiating a clause can do. -/
inductive InstanceOutcome (store : ClauseStore) (id : ClauseId) (σ : Substitution) (scope : Nat) :
    ClauseStore → Except Fault ClauseId → Prop where
  /-- There is no such clause. -/
  | unknown {fault : Fault} (absent : store.get id = .error fault) :
    InstanceOutcome store id σ scope store (.error fault)
  /-- The creation stops. -/
  | stopped {clause : Clause} {later : ClauseStore} {fault : Fault} (found : store.get? id = some clause)
    (created : store.create (clause.asInstance id σ scope) = (later, .error fault)) :
    InstanceOutcome store id σ scope later (.error fault)
  /-- The clause is its own instance. -/
  | same {clause : Clause} {later : ClauseStore} (found : store.get? id = some clause)
    (created : store.create (clause.asInstance id σ scope) = (later, .ok id)) :
    InstanceOutcome store id σ scope later (.ok id)
  /-- The instance is another clause, which inherits descendants. -/
  | other {clause : Clause} {later : ClauseStore} {result : ClauseId} (found : store.get? id = some clause)
    (created : store.create (clause.asInstance id σ scope) = (later, .ok result)) (ne : result ≠ id) :
    InstanceOutcome store id σ scope (later.extendDescendants result clause.descendants) (.ok result)

theorem applySubstitution_outcome (store : ClauseStore) (id : ClauseId) (σ : Substitution) (scope : Nat) :
    InstanceOutcome store id σ scope (store.applySubstitution id σ scope).1
      (store.applySubstitution id σ scope).2 := by
  rw [applySubstitution]
  split
  · next fault absent => exact .unknown absent
  · next clause found =>
    rw [get_eq_ok_iff] at found
    dsimp only
    split
    · next later fault created => exact .stopped found created
    · next later result created =>
      split
      · next heq =>
        subst heq
        exact .same found created
      · next hne => exact .other found created hne

/-- Everything that making a clause again can do. -/
inductive RederiveOutcome (store : ClauseStore) (id : ClauseId) :
    ClauseStore → Except Fault ClauseId → Prop where
  /-- There is no such clause. -/
  | unknown {fault : Fault} (absent : store.get id = .error fault) :
    RederiveOutcome store id store (.error fault)
  /-- The clause is of the current epoch. -/
  | current {clause : Clause} (found : store.get? id = some clause) (epoch : clause.epoch = store.epoch) :
    RederiveOutcome store id store (.ok id)
  /-- The clause is of an earlier epoch and is asked for. -/
  | again {clause : Clause} (found : store.get? id = some clause) (epoch : clause.epoch ≠ store.epoch) :
    RederiveOutcome store id (store.create clause.again).1 (store.create clause.again).2

theorem rederive_outcome (store : ClauseStore) (id : ClauseId) :
    RederiveOutcome store id (store.rederive id).1 (store.rederive id).2 := by
  rw [rederive]
  split
  · next fault absent => exact .unknown absent
  · next clause found =>
    rw [get_eq_ok_iff] at found
    split
    · next epoch => exact .current found epoch
    · next epoch => exact .again found epoch

end ClauseStore

/-! ## Runs -/

/-- Whether a call exchanges the ordering. -/
def StoreCall.setsOrdering : StoreCall → Bool
  | .setOrdering _ => true
  | _ => false

namespace ClauseStore

/-- Performs calls one after the other. A call that stops with a fault leaves the store as it is at
that point, and the run goes on from there. -/
def performAll (store : ClauseStore) : List StoreCall → ClauseStore
  | [] => store
  | call :: calls => (store.perform call).1.performAll calls

theorem performAll_append (store : ClauseStore) (calls calls' : List StoreCall) :
    store.performAll (calls ++ calls') = (store.performAll calls).performAll calls' := by
  induction calls generalizing store with
  | nil => rfl
  | cons call calls ih => exact ih _

theorem performAll_concat (store : ClauseStore) (calls : List StoreCall) (call : StoreCall) :
    store.performAll (calls ++ [call]) = ((store.performAll calls).perform call).1 :=
  store.performAll_append calls [call]

/-- Opening an epoch changes nothing but its number, and nothing at all where numbers have run out. -/
theorem exists_nextEpoch_eq (store : ClauseStore) :
    ∃ epoch, store.epoch ≤ epoch ∧ store.nextEpoch.1 = { store with epoch } := by
  rw [nextEpoch]
  split
  · exact ⟨_, Nat.le_succ _, rfl⟩
  · exact ⟨store.epoch, Nat.le_refl _, rfl⟩

theorem clauses_nextEpoch (store : ClauseStore) : store.nextEpoch.1.clauses = store.clauses := by
  obtain ⟨epoch, -, heq⟩ := store.exists_nextEpoch_eq
  rw [heq]

/-- A property of stores that creation, more descendants and the exchange of settings keep is kept by
every call. Instances and clauses made again are creations. -/
theorem perform_induction {motive : ClauseStore → Prop} (store : ClauseStore) (call : StoreCall)
    (create : ∀ later input, motive later → motive (later.create input).1)
    (descend : ∀ later id extra, motive later → motive (later.extendDescendants id extra))
    (ordering : ∀ ordering epoch, call = .setOrdering ordering → store.epoch ≤ epoch →
      motive { store with ordering, epoch })
    (selector : ∀ selector epoch, call = .setSelector selector → store.epoch ≤ epoch →
      motive { store with selector, epoch })
    (h : motive store) : motive (store.perform call).1 := by
  cases call with
  | create input => exact create store input h
  | applySubstitution id σ scope =>
    have hmade : ∀ {input later result}, store.create input = (later, result) → motive later := by
      intro input later result created
      have hcreate := create store input h
      rwa [created] at hcreate
    have houtcome := store.applySubstitution_outcome id σ scope
    show motive (store.applySubstitution id σ scope).1
    generalize (store.applySubstitution id σ scope).1 = later at houtcome ⊢
    generalize (store.applySubstitution id σ scope).2 = result at houtcome
    cases houtcome with
    | unknown => exact h
    | stopped _ created => exact hmade created
    | same _ created => exact hmade created
    | other _ created => exact descend _ _ _ (hmade created)
  | rederive id =>
    have houtcome := store.rederive_outcome id
    show motive (store.rederive id).1
    generalize (store.rederive id).1 = later at houtcome ⊢
    generalize (store.rederive id).2 = result at houtcome
    cases houtcome with
    | unknown => exact h
    | current => exact h
    | again => exact create store _ h
  | setOrdering order =>
    obtain ⟨epoch, hepoch, heq⟩ := exists_nextEpoch_eq { store with ordering := order }
    show motive (nextEpoch _).1
    rw [heq]
    exact ordering order epoch rfl hepoch
  | setSelector select =>
    obtain ⟨epoch, hepoch, heq⟩ := exists_nextEpoch_eq { store with selector := select }
    show motive (nextEpoch _).1
    rw [heq]
    exact selector select epoch rfl hepoch

/-- A property that every call keeps holds at the end of a run. -/
theorem performAll_induction {motive : ClauseStore → Prop}
    (step : ∀ store call, motive store → motive (store.perform call).1) (store : ClauseStore)
    (calls : List StoreCall) (h : motive store) : motive (store.performAll calls) := by
  induction calls generalizing store with
  | nil => exact h
  | cons call calls ih => exact ih _ (step store call h)

/-- Adding descendants adds descendants only. -/
theorem extendDescendants_continue (store : ClauseStore) (id : ClauseId) (extra : List ClauseId) :
    ClausesContinue store.clauses (store.extendDescendants id extra).clauses :=
  .modify store.clauses id (insertAll · (extra.filter (· ≠ id))) (isPrefix_insertAll · _)

/-- Every call extends the store. -/
theorem extends_perform (store : ClauseStore) (call : StoreCall) :
    store.Extends (store.perform call).1 :=
  perform_induction (motive := fun later => store.Extends later) store call
    (fun later input h => h.trans (later.create_outcome input).extends)
    (fun later id extra h => h.trans (.ofClauses (later.extendDescendants_continue id extra)))
    (fun _ _ _ _ => .ofClauses (.refl _)) (fun _ _ _ _ => .ofClauses (.refl _)) (.refl store)

/-- Every run extends the store: no clause is lost, and none changes but for its descendants. -/
theorem extends_performAll (store : ClauseStore) (calls : List StoreCall) :
    store.Extends (store.performAll calls) :=
  performAll_induction (motive := fun later => store.Extends later)
    (fun later call h => h.trans (later.extends_perform call)) store calls (.refl store)

/-- Only the call for it exchanges the ordering. -/
theorem ordering_perform (store : ClauseStore) {call : StoreCall}
    (h : call.setsOrdering = false) : (store.perform call).1.ordering = store.ordering := by
  refine perform_induction (motive := fun later => later.ordering = store.ordering) store call
    ?_ (fun later id extra hlater => hlater) ?_ (fun _ _ _ _ => rfl) rfl
  · intro later input hlater
    exact (later.create_outcome input).settings_eq.1.trans hlater
  · intro ordering epoch hcall
    rw [hcall] at h
    cases h

/-! ## Numbers -/

/-- Every clause carries the number under which it is found. -/
def Numbered (store : ClauseStore) : Prop :=
  ∀ id clause, store.get? id = some clause → clause.id = id

theorem Numbered.of_continue {store : ClauseStore} (h : store.Numbered) (later : ClauseStore)
    (hcontinue : ClausesContinue store.clauses later.clauses) : later.Numbered := by
  intro id clause' hget
  obtain ⟨clause, hclause, hcontinues⟩ := hcontinue.of_getElem? hget
  rw [hcontinues.id_eq]
  exact h id clause hclause

/-- A creation keeps the numbers. -/
theorem CreateOutcome.numbered {store store' : ClauseStore} {input : ClauseInput}
    {result : Except Fault ClauseId} (h : CreateOutcome store input store' result)
    (hstore : store.Numbered) : store'.Numbered := by
  have hlinked := linkParents_continue store.size input.parents store.clauses
  cases h with
  | oversized => exact hstore
  | shared => exact hstore
  | mismatched => exact hstore
  | refused => exact hstore
  | unlinked _ _ links =>
    rw [links] at hlinked
    exact hstore.of_continue _ hlinked
  | @made _ _ _ selected distance clauses _ _ links =>
    -- linking adds no clause, so the new one comes right after the old ones
    rw [links] at hlinked
    intro id clause hget
    rw [get?, Array.getElem?_push] at hget
    split at hget
    · next hid =>
      cases hget
      exact (hid.trans hlinked.size_eq).symm
    · exact hstore.of_continue { store with clauses } hlinked id clause hget

theorem Numbered.perform {store : ClauseStore} (h : store.Numbered) (call : StoreCall) :
    (store.perform call).1.Numbered :=
  perform_induction (motive := Numbered) store call
    (fun later input hlater => (later.create_outcome input).numbered hlater)
    (fun later id extra hlater => hlater.of_continue _ (later.extendDescendants_continue id extra))
    (fun _ _ _ _ => h) (fun _ _ _ _ => h) h

theorem Numbered.performAll {store : ClauseStore} (h : store.Numbered) (calls : List StoreCall) :
    (store.performAll calls).Numbered :=
  performAll_induction (fun _ call hstore => hstore.perform call) store calls h

theorem numbered_new (ordering : TermOrder) (selector : Selector) : (new ordering selector).Numbered :=
  ((bare ordering selector).create_outcome _).numbered fun _ _ h => by
    rw [get?, bare] at h
    cases h

end ClauseStore

end GivenClause
