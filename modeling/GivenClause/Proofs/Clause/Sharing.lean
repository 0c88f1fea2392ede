import GivenClause.Proofs.Clause.StoreRuns
import GivenClause.Proofs.Literal.Variants

/-! # Clauses are shared exactly up to renaming

A store finds a clause again by its canonical literals and the epoch. Every entry of its table leads to a
clause with the literals and the epoch of the entry's key, no entry is ever changed, and so two requests of
a run are answered by one clause exactly when they are variants of each other in one epoch.

* `ClauseStore.TableSound` is the invariant of the table, `ClauseStore.tableSound_performAll` says that
  every run keeps it, and `ClauseStore.table_performAll` that no entry is lost;
* `ClauseStore.create_eq_ok_iff`: when a creation is answered by a known clause;
* `ClauseStore.create_eq_iff_variant`: two requests of a run. -/

namespace GivenClause

/-- What a clause is shared by. -/
def Clause.key (clause : Clause) : ClauseKey :=
  ⟨clause.literals, clause.epoch⟩

theorem Clause.Continues.key_eq {clause later : Clause} (h : clause.Continues later) :
    later.key = clause.key := by
  rw [Clause.key, Clause.key, h.literals_eq, h.epoch_eq]

namespace ClauseStore

/-! ## The table -/

/-- The clause with a given number has a given key. -/
def HasKey (store : ClauseStore) (id : ClauseId) (key : ClauseKey) : Prop :=
  ∃ clause, store.get? id = some clause ∧ clause.key = key

/-- A clause has one key. -/
theorem HasKey.unique {store : ClauseStore} {id : ClauseId} {key key' : ClauseKey}
    (h : store.HasKey id key) (h' : store.HasKey id key') : key = key' := by
  obtain ⟨clause, hget, rfl⟩ := h
  obtain ⟨clause', hget', rfl⟩ := h'
  rw [hget, Option.some.injEq] at hget'
  rw [hget']

/-- Clauses keep their keys. -/
theorem HasKey.of_extends {store later : ClauseStore} {id : ClauseId} {key : ClauseKey}
    (h : store.HasKey id key) (hextends : store.Extends later) : later.HasKey id key := by
  obtain ⟨clause, hget, rfl⟩ := h
  obtain ⟨clause', hget', hcontinues⟩ := hextends.continues id clause hget
  exact ⟨clause', hget', hcontinues.key_eq⟩

theorem HasKey.lt_size {store : ClauseStore} {id : ClauseId} {key : ClauseKey}
    (h : store.HasKey id key) : id < store.size := by
  obtain ⟨clause, hget, -⟩ := h
  exact (Array.getElem?_eq_some_iff.1 hget).1

/-- Every entry of the table leads to a clause with the entry's key. -/
def TableSound (store : ClauseStore) : Prop :=
  ∀ key id, store.table[key]? = some id → store.HasKey id key

theorem TableSound.of_extends {store later : ClauseStore} (h : store.TableSound)
    (htable : later.table = store.table) (hextends : store.Extends later) : later.TableSound := by
  intro key id hentry
  rw [htable] at hentry
  exact (h key id hentry).of_extends hextends

/-- What a creation does to the table: nothing, or one entry for the clause it makes. -/
theorem CreateOutcome.table_cases {store store' : ClauseStore} {input : ClauseInput}
    {result : Except Fault ClauseId} (h : CreateOutcome store input store' result) :
    store'.table = store.table ∨
      store'.table = store.table.insert (store.keyFor input) store.size ∧
        store.table[store.keyFor input]? = none ∧
        store'.HasKey store.size (store.keyFor input) := by
  cases h with
  | oversized => exact Or.inl rfl
  | shared => exact Or.inl rfl
  | mismatched => exact Or.inl rfl
  | refused => exact Or.inl rfl
  | unlinked => exact Or.inl rfl
  | @made _ unknown _ selected distance clauses _ _ links =>
    have hlinked := linkParents_continue store.size input.parents store.clauses
    rw [links] at hlinked
    refine Or.inr ⟨rfl, unknown, store.clauseFor input selected distance, ?_, rfl⟩
    rw [get?, size, ← hlinked.size_eq]
    exact Array.getElem?_push_size

/-- A creation keeps the table sound. -/
theorem CreateOutcome.tableSound {store store' : ClauseStore} {input : ClauseInput}
    {result : Except Fault ClauseId} (h : CreateOutcome store input store' result)
    (hstore : store.TableSound) : store'.TableSound := by
  rcases h.table_cases with htable | ⟨htable, -, hnew⟩
  · exact hstore.of_extends htable h.extends
  · intro key id hentry
    rw [htable, Std.HashMap.getElem?_insert] at hentry
    split at hentry
    · next hkey =>
      rw [← eq_of_beq hkey, ← Option.some.inj hentry]
      exact hnew
    · exact (hstore key id hentry).of_extends h.extends

/-- A creation keeps every entry of the table. -/
theorem CreateOutcome.getElem?_table {store store' : ClauseStore} {input : ClauseInput}
    {result : Except Fault ClauseId} (h : CreateOutcome store input store' result)
    {key : ClauseKey} {id : ClauseId} (hentry : store.table[key]? = some id) :
    store'.table[key]? = some id := by
  rcases h.table_cases with htable | ⟨htable, hunknown, -⟩
  · rw [htable, hentry]
  · -- the new entry has another key, since its own was not known
    have hkey : store.keyFor input ≠ key := by
      rintro rfl
      rw [hunknown] at hentry
      cases hentry
    rw [htable, Std.HashMap.getElem?_insert, if_neg (by simpa using hkey), hentry]

/-! ## The table along a run -/

theorem tableSound_new (ordering : TermOrder) (selector : Selector) :
    (new ordering selector).TableSound := by
  refine ((bare ordering selector).create_outcome _).tableSound ?_
  intro key id hentry
  rw [show (bare ordering selector).table[key]? = none from Std.HashMap.getElem?_empty] at hentry
  cases hentry

/-- Every run keeps the table sound. -/
theorem tableSound_performAll {store : ClauseStore} (h : store.TableSound)
    (calls : List StoreCall) : (store.performAll calls).TableSound := by
  refine performAll_induction (motive := TableSound) (fun store call hstore => ?_) store calls h
  exact perform_induction (motive := TableSound) store call
    (fun later input hlater => (later.create_outcome input).tableSound hlater)
    (fun later id extra hlater =>
      hlater.of_extends rfl (.ofClauses (later.extendDescendants_continue id extra)))
    (fun _ _ _ _ => hstore) (fun _ _ _ _ => hstore) hstore

/-- No run changes an entry of the table. -/
theorem table_performAll {store : ClauseStore} {key : ClauseKey} {id : ClauseId}
    (h : store.table[key]? = some id) (calls : List StoreCall) :
    (store.performAll calls).table[key]? = some id := by
  refine performAll_induction (motive := fun later => later.table[key]? = some id)
    (fun later call hlater => ?_) store calls h
  exact perform_induction (motive := fun later => later.table[key]? = some id) later call
    (fun later input hlater => (later.create_outcome input).getElem?_table hlater)
    (fun _ _ _ hlater => hlater) (fun _ _ _ _ => hlater) (fun _ _ _ _ => hlater) hlater

/-! ## Requests -/

/-- A creation that gives a number enters it in the table. -/
theorem CreateOutcome.getElem?_keyFor {store store' : ClauseStore} {input : ClauseInput}
    {id : ClauseId} (h : CreateOutcome store input store' (.ok id))
    (short : input.literals.length ≤ LiteralSet.capacity) :
    store'.table[store.keyFor input]? = some id := by
  cases h with
  | oversized long => exact absurd long (Nat.not_lt.2 short)
  | shared _ known => exact known
  | made => exact Std.HashMap.getElem?_insert_self

/-- A creation is answered by a known clause exactly when it asks for that clause's key. -/
theorem create_eq_ok_iff {store : ClauseStore} (hstore : store.TableSound) {key : ClauseKey}
    {id : ClauseId} (hentry : store.table[key]? = some id) {input : ClauseInput}
    (short : input.literals.length ≤ LiteralSet.capacity) :
    (store.create input).2 = .ok id ↔ store.keyFor input = key := by
  have hkey := hstore key id hentry
  have hunknown : store.table[store.keyFor input]? = none → store.keyFor input ≠ key := by
    rintro hnone rfl
    rw [hnone] at hentry
    cases hentry
  have houtcome := store.create_outcome input
  generalize (store.create input).1 = store' at houtcome
  generalize (store.create input).2 = result at houtcome ⊢
  cases houtcome with
  | oversized long => exact absurd long (Nat.not_lt.2 short)
  | shared _ known =>
    constructor
    · intro hid
      cases hid
      exact (hstore _ _ known).unique hkey
    · rintro rfl
      rw [known] at hentry
      rw [Option.some.inj hentry]
  | mismatched _ known other =>
    refine ⟨nofun, ?_⟩
    rintro rfl
    -- the table is sound, so the clause it leads to has the literals that were asked for
    obtain ⟨clause, hget, hclause⟩ := hstore _ _ known
    exact absurd (congrArg ClauseKey.literals hclause) (other clause hget)
  | refused _ unknown => exact ⟨nofun, fun heq => absurd heq (hunknown unknown)⟩
  | unlinked _ unknown => exact ⟨nofun, fun heq => absurd heq (hunknown unknown)⟩
  | made _ unknown =>
    refine ⟨fun hid => ?_, fun heq => absurd heq (hunknown unknown)⟩
    -- a clause that was there before has a smaller number than the new one
    cases hid
    exact absurd hkey.lt_size (Nat.lt_irrefl _)

/-- What a call asks the store to make. An instance is always asked for, a clause made again only when it
is of an earlier epoch. -/
def request? (store : ClauseStore) : StoreCall → Option ClauseInput
  | .create input => some input
  | .applySubstitution id σ scope =>
    (store.get? id).map fun clause =>
      { literals := (instantiateLiterals σ scope {} clause.literals).1
        provenance := { clause.provenance with rule := "instantiate" }
        parents := [id] }
  | .rederive id =>
    (store.get? id).bind fun clause =>
      if clause.epoch = store.epoch then none
      else some
        { literals := clause.literals, provenance := clause.provenance, parents := clause.parents }
  | .setOrdering _ => none
  | .setSelector _ => none

/-- A call that asks for a clause leaves the table as the creation leaves it. -/
theorem table_perform_of_request? {store : ClauseStore} {call : StoreCall} {input : ClauseInput}
    (h : store.request? call = some input) :
    (store.perform call).1.table = (store.create input).1.table := by
  cases call with
  | create input' =>
    cases h
    rfl
  | applySubstitution id σ scope =>
    obtain ⟨clause, hget, rfl⟩ := Option.map_eq_some_iff.1 h
    show (store.applySubstitution id σ scope).1.table = _
    rw [applySubstitution, get, hget]
    dsimp only
    split
    · next made fault heq => rw [heq]
    · next made result heq =>
      -- inheriting descendants does not touch the table
      rw [heq]
      split
      · rfl
      · rfl
  | rederive id =>
    obtain ⟨clause, hget, hinput⟩ := Option.bind_eq_some_iff.1 h
    show (store.rederive id).1.table = _
    rw [rederive, get, hget]
    dsimp only
    split at hinput
    · cases hinput
    · next hepoch =>
      rw [if_neg hepoch]
      cases hinput
      rfl
  | setOrdering ordering => cases h
  | setSelector selector => cases h

/-- Two requests of a run, each of at most 64 literals (longer ones are all answered by the trivial clause),
the second one after any further calls: it is answered by the clause that answered the first one exactly
when the epoch is the same and a bijection of variables turns one list of literals into the other. The
literals of that clause are the first list up to renaming, then and ever after. -/
theorem create_eq_iff_variant (ordering : TermOrder) (selector : Selector)
    (before : List StoreCall) (call : StoreCall) (between : List StoreCall)
    {input₁ input₂ : ClauseInput} {id : ClauseId}
    (hcall : ((new ordering selector).performAll before).request? call = some input₁)
    (short₁ : input₁.literals.length ≤ 64) (short₂ : input₂.literals.length ≤ 64)
    (hid : (((new ordering selector).performAll before).create input₁).2 = .ok id) :
    let first := (new ordering selector).performAll before
    let second := (first.perform call).1.performAll between
    ((second.create input₂).2 = .ok id ↔
      first.epoch = second.epoch ∧ Variant input₁.literals input₂.literals) ∧
    ∃ clause, second.get? id = some clause ∧ Variant input₁.literals clause.literals := by
  intro first second
  -- the entry that answers the first request is still in the table when the second one is made
  have hsecond : second = first.performAll (call :: between) := rfl
  have hsound : second.TableSound := by
    rw [hsecond]
    exact tableSound_performAll (tableSound_performAll (tableSound_new ordering selector) before) _
  have hentry : second.table[first.keyFor input₁]? = some id := by
    refine table_performAll ?_ between
    rw [table_perform_of_request? hcall]
    have houtcome := first.create_outcome input₁
    rw [hid] at houtcome
    exact houtcome.getElem?_keyFor short₁
  constructor
  · rw [create_eq_ok_iff hsound hentry short₂, keyFor, keyFor, ClauseKey.mk.injEq,
      canonicalLiterals_eq_iff, and_comm]
    exact and_congr eq_comm ⟨Variant.symm, Variant.symm⟩
  · obtain ⟨clause, hget, hclause⟩ := hsound _ _ hentry
    refine ⟨clause, hget, ?_⟩
    rw [show clause.literals = canonicalLiterals input₁.literals from
      congrArg ClauseKey.literals hclause]
    exact variant_canonicalLiterals _

/-- The clause `P(x, y)`. -/
def orderedPair : ClauseInput where
  literals := [.prop (.app ⟨0, 2⟩ [.var 3, .var 1]) true]
  provenance := .input .axiomatic

/-- The clause `P(x, y)` again, with other variables, a selection and a parent that does not exist. -/
def renamedPair : ClauseInput where
  literals := [.prop (.app ⟨0, 2⟩ [.var 1, .var 7]) true]
  provenance := .input .negatedConjecture
  parents := [40]
  selected := some ⟨1⟩

/-- The clause `P(x, x)`. -/
def diagonalPair : ClauseInput where
  literals := [.prop (.app ⟨0, 2⟩ [.var 3, .var 3]) true]
  provenance := .input .axiomatic

/-- After a call that stops with a fault the renamed clause is found and the other one is not. -/
theorem create_eq_iff_variant_pairs :
    let start := new (.kbo {}) (.preset .none)
    let store := (start.perform (.create orderedPair)).1.performAll [.rederive 9]
    (start.create orderedPair).2 = .ok 1 ∧ (store.create renamedPair).2 = .ok 1 ∧
      (store.create diagonalPair).2 ≠ .ok 1 := by
  intro start store
  have hstart : start = _ := new_eq_createNew (.kbo {}) (.preset .none)
  have hcreate : start.create orderedPair =
      start.createNew orderedPair (canonicalLiterals orderedPair.literals) :=
    create_eq_createNew (by decide) (getElem?_table_new (by decide))
  have hid : (start.create orderedPair).2 = .ok 1 := by
    rw [hcreate, hstart]
    decide +kernel
  have hepoch : start.epoch = store.epoch := by
    show start.epoch = ((start.create orderedPair).1.performAll [.rederive 9]).epoch
    rw [hcreate, hstart]
    decide +kernel
  have hrenamed := (create_eq_iff_variant (.kbo {}) (.preset .none) [] (.create orderedPair) [.rederive 9]
    rfl (by decide) (show renamedPair.literals.length ≤ 64 by decide) hid).1
  have hdiagonal := (create_eq_iff_variant (.kbo {}) (.preset .none) [] (.create orderedPair) [.rederive 9]
    rfl (by decide) (show diagonalPair.literals.length ≤ 64 by decide) hid).1
  refine ⟨hid, hrenamed.2 ⟨hepoch, by decide +kernel⟩, fun h => ?_⟩
  exact absurd (hdiagonal.1 h).2 (by decide +kernel)

end ClauseStore

end GivenClause
