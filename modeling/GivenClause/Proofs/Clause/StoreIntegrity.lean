import Mathlib.Algebra.Ring.Nat
import GivenClause.Proofs.Clause.EligibleInstances
import GivenClause.Proofs.Clause.Sharing

/-! # The integrity of a clause store

One creation serves every call that makes clauses. It may find the clause, give up because the clause is
too long, find no number left, stop half-way at an unknown parent, or make the clause; and in between the
ordering and the selector are exchanged for any others. Whatever happens, each clause carries what can be
recomputed from its literals and its provenance, its selection is cut at its length, and the table of known
clauses is exactly the list of clauses read backwards.

* `Clause.WellFormed` and `ClauseStore.WellFormed` are the invariants;
* `ClauseStore.CreateOutcome.wellFormed` is the step, `ClauseStore.wellFormed_performAll` the run;
* `ClauseStore.StopsBy` lists why a call may stop, `ClauseStore.WellFormed.perform_stopsBy` says that this
  is all;
* `ClauseStore.integrity_performAll` for all runs of a new store. -/

namespace GivenClause

/-! ## Clauses -/

/-- Everything in a clause that its literals and its provenance determine is what they determine. -/
structure Clause.WellFormed (clause : Clause) : Prop where
  /-- Variables are numbered 0, 1, … in order of first occurrence. -/
  ordered : literalVariables clause.literals =
    List.range (literalVariables clause.literals).length
  /-- Numbering the variables again changes nothing. -/
  canonical : canonicalLiterals clause.literals = clause.literals
  /-- A set of literal indices can hold all literals. -/
  short : clause.length ≤ 64
  /-- The variables are those of the literals. -/
  vars : clause.vars = literalVariables clause.literals
  /-- The weight is that of the literals. -/
  weight : clause.weight = (clause.literals.map Literal.weight).sum
  /-- The clause is flagged as ground when no literal has a variable. -/
  ground : clause.isGround = clause.literals.all Literal.isGround
  /-- The clause is flagged as a lemma when that is its role. -/
  auxiliary : clause.isLemma = decide (clause.provenance.role = .auxiliary)
  /-- The clause is flagged as persistent when its provenance says so. -/
  persistent : clause.isPersistent = clause.provenance.persistent
  /-- Selected literals are literals of the clause. -/
  selected : ∀ i, clause.selected.contains i = true → i < clause.length

/-- Only the descendants change, and nothing is computed from them. -/
theorem Clause.WellFormed.of_continues {clause later : Clause} (h : clause.WellFormed)
    (hcontinues : clause.Continues later) : later.WellFormed := by
  rw [hcontinues.same]
  exact ⟨h.ordered, h.canonical, h.short, h.vars, h.weight, h.ground, h.auxiliary, h.persistent,
    h.selected⟩

/-- The flags of a clause can be read off one by one. -/
theorem ClauseFlags.contains_of (vars : List Nat) (provenance : Provenance) :
    (ClauseFlags.of vars provenance).contains .ground = vars.isEmpty ∧
      (ClauseFlags.of vars provenance).contains .auxiliary =
        decide (provenance.role = .auxiliary) ∧
      (ClauseFlags.of vars provenance).contains .persistent = provenance.persistent := by
  rw [ClauseFlags.of]
  generalize vars.isEmpty = hasNoVars
  generalize decide (provenance.role = .auxiliary) = isAuxiliary
  generalize provenance.persistent = isPersistent
  revert hasNoVars isAuxiliary isPersistent
  decide

theorem literalVariables_isEmpty (literals : List Literal) :
    (literalVariables literals).isEmpty = literals.all Literal.isGround := by
  rw [Bool.eq_iff_iff, List.isEmpty_iff, List.all_eq_true, List.eq_nil_iff_forall_not_mem]
  simp only [literalVariables, literalVariablesAfter, InsertionOrder.mem_insertAll, List.not_mem_nil,
    false_or, List.mem_flatMap, Literal.isGround, List.isEmpty_iff, List.eq_nil_iff_forall_not_mem,
    not_exists, not_and]
  exact ⟨fun h lit hlit v => h v lit hlit, fun h v lit hlit => h lit hlit v⟩

theorem literalsWeight_eq_sum (literals : List Literal) :
    literalsWeight literals = (literals.map Literal.weight).sum := by
  induction literals with
  | nil => rfl
  | cons lit literals ih => rw [literalsWeight, List.foldr_cons, ← literalsWeight, ih, List.map_cons,
      List.sum_cons]

namespace ClauseStore

/-- The selection of a new clause is cut at its length, whoever made it. -/
theorem lt_length_of_selectionFor {store : ClauseStore} {literals : List Literal}
    {explicit : Option LiteralSet} {selected : LiteralSet}
    (h : store.selectionFor literals explicit = .ok selected) {i : Nat}
    (hi : selected.contains i = true) : i < literals.length := by
  have hcut : ∃ set : LiteralSet, selected = set.truncate literals.length := by
    cases explicit with
    | some set =>
      cases h
      exact ⟨set, rfl⟩
    | none =>
      obtain ⟨set, -, hset⟩ := Fault.bind_eq_ok.1 h
      cases hset
      exact ⟨set, rfl⟩
  obtain ⟨set, rfl⟩ := hcut
  rw [LiteralSet.contains_truncate, Bool.and_eq_true, decide_eq_true_iff] at hi
  exact hi.2

/-- The clause that a creation makes is well formed. -/
theorem wellFormed_clauseFor {store : ClauseStore} {input : ClauseInput} {selected : LiteralSet}
    (short : input.literals.length ≤ LiteralSet.capacity)
    (selection : store.selectionFor (canonicalLiterals input.literals) input.selected = .ok selected)
    (distance : Option Nat) : (store.clauseFor input selected distance).WellFormed := by
  have hvars : literalVariables (canonicalLiterals input.literals) =
      List.range (literalVariables (canonicalLiterals input.literals)).length := by
    rw [literalVariables_canonicalLiterals, List.length_range]
  obtain ⟨hground, hauxiliary, hpersistent⟩ :=
    ClauseFlags.contains_of (literalVariables (canonicalLiterals input.literals)) input.provenance
  refine ⟨hvars, canonicalLiterals_eq_self hvars, ?_, rfl, literalsWeight_eq_sum _, ?_, hauxiliary,
    hpersistent, fun i hi => lt_length_of_selectionFor selection hi⟩
  · show (canonicalLiterals input.literals).length ≤ 64
    rw [length_canonicalLiterals]
    exact short
  · exact hground.trans (literalVariables_isEmpty _)

/-! ## Stores -/

/-- The parts of a store fit together. -/
structure WellFormed (store : ClauseStore) : Prop where
  /-- Clauses carry their numbers. -/
  numbered : store.Numbered
  /-- The table leads from a key to a clause exactly when the clause has that key. -/
  table : ∀ key id, store.table[key]? = some id ↔ store.HasKey id key
  /-- Every clause is well formed. -/
  clauses : ∀ id clause, store.get? id = some clause → clause.WellFormed
  /-- Numbers of clauses have 32 bits. -/
  bounded : store.size ≤ idBound
  /-- Every clause was counted when it was made. -/
  created : store.stats.created = store.size
  /-- The store is incomplete once a clause was too long. -/
  incomplete : store.incomplete = true ↔ 0 < store.stats.oversized

/-- Clauses in a later state have the same keys. -/
theorem hasKey_iff_of_continue {store later : ClauseStore}
    (h : ClausesContinue store.clauses later.clauses) {id : ClauseId} {key : ClauseKey} :
    later.HasKey id key ↔ store.HasKey id key := by
  constructor
  · rintro ⟨clause', hget', rfl⟩
    obtain ⟨clause, hget, hcontinues⟩ := h.of_getElem? hget'
    exact ⟨clause, hget, hcontinues.key_eq.symm⟩
  · exact fun hkey => hkey.of_extends (.ofClauses h)

namespace WellFormed

variable {store later : ClauseStore}

/-- No two clauses share a key. -/
theorem eq_of_hasKey (h : store.WellFormed) {id id' : ClauseId} {key : ClauseKey}
    (hid : store.HasKey id key) (hid' : store.HasKey id' key) : id = id' :=
  Option.some.inj (((h.table key id).2 hid).symm.trans ((h.table key id').2 hid'))

theorem tableSound (h : store.WellFormed) : store.TableSound :=
  fun key id hentry => (h.table key id).1 hentry

/-- A store stays well formed when at most descendants and counters of other things change. -/
theorem of_continue (h : store.WellFormed) (hcontinue : ClausesContinue store.clauses later.clauses)
    (htable : later.table = store.table) (hcreated : later.stats.created = store.stats.created)
    (hincomplete : later.incomplete = true ↔ 0 < later.stats.oversized) : later.WellFormed where
  numbered := h.numbered.of_continue later hcontinue
  table := by
    intro key id
    rw [htable, hasKey_iff_of_continue hcontinue]
    exact h.table key id
  clauses := by
    intro id clause' hget'
    obtain ⟨clause, hget, hcontinues⟩ := hcontinue.of_getElem? hget'
    exact (h.clauses id clause hget).of_continues hcontinues
  bounded := by
    rw [size, hcontinue.size_eq]
    exact h.bounded
  created := by
    rw [hcreated, h.created]
    exact hcontinue.size_eq.symm
  incomplete := hincomplete

/-- A clause with a key of its own can be put at the end, with its entry in the table, as long as there is a
number for it. -/
theorem push (h : store.WellFormed) {clause : Clause} (hroom : store.size < idBound)
    (hid : clause.id = store.size) (hclause : clause.WellFormed)
    (hunknown : store.table[clause.key]? = none) :
    WellFormed
      { store with
        clauses := store.clauses.push clause
        table := store.table.insert clause.key store.size
        stats := { store.stats with created := store.stats.created + 1 } } := by
  set later : ClauseStore :=
    { store with
      clauses := store.clauses.push clause
      table := store.table.insert clause.key store.size
      stats := { store.stats with created := store.stats.created + 1 } } with hlater
  have hget : ∀ {i : ClauseId} {c : Clause}, later.get? i = some c →
      i = store.size ∧ c = clause ∨ i ≠ store.size ∧ store.get? i = some c := by
    intro i c hi
    rw [get?, hlater, Array.getElem?_push] at hi
    split at hi
    · next heq => exact Or.inl ⟨heq, (Option.some.inj hi).symm⟩
    · next hne => exact Or.inr ⟨hne, hi⟩
  have hextends : store.Extends later := .ofPush (.refl _) rfl
  have hnew : later.get? store.size = some clause := Array.getElem?_push_size
  refine ⟨?_, ?_, ?_, ?_, ?_, h.incomplete⟩
  · intro i c hi
    obtain ⟨rfl, rfl⟩ | ⟨-, hold⟩ := hget hi
    · exact hid
    · exact h.numbered i c hold
  · intro key i
    rw [hlater, Std.HashMap.getElem?_insert, ← hlater]
    split
    · next heq =>
      -- the key of the new clause: it was unknown, so no older clause has it
      have hkey : clause.key = key := eq_of_beq heq
      subst hkey
      rw [Option.some.injEq]
      constructor
      · rintro rfl
        exact ⟨clause, hnew, rfl⟩
      · rintro ⟨c, hi, hc⟩
        obtain ⟨rfl, -⟩ | ⟨-, hold⟩ := hget hi
        · rfl
        · rw [(h.table _ i).2 ⟨c, hold, hc⟩] at hunknown
          cases hunknown
    · next hne =>
      rw [h.table key i]
      constructor
      · exact fun hkey => hkey.of_extends hextends
      · rintro ⟨c, hi, hc⟩
        obtain ⟨-, rfl⟩ | ⟨-, hold⟩ := hget hi
        · exact absurd (beq_of_eq hc) hne
        · exact ⟨c, hold, hc⟩
  · intro i c hi
    obtain ⟨-, rfl⟩ | ⟨-, hold⟩ := hget hi
    · exact hclause
    · exact h.clauses i c hold
  · show (store.clauses.push clause).size ≤ idBound
    rw [Array.size_push]
    exact hroom
  · show store.stats.created + 1 = (store.clauses.push clause).size
    rw [Array.size_push, h.created, size]

end WellFormed

/-- A creation keeps a store well formed. -/
theorem CreateOutcome.wellFormed {store later : ClauseStore} {input : ClauseInput}
    {result : Except Fault ClauseId} (houtcome : CreateOutcome store input later result)
    (h : store.WellFormed) : later.WellFormed := by
  have hlinked := linkParents_continue store.size input.parents store.clauses
  cases houtcome with
  | oversized =>
    exact h.of_continue (.refl _) rfl rfl (iff_of_true rfl (Nat.succ_pos _))
  | shared => exact h.of_continue (.refl _) rfl rfl h.incomplete
  | mismatched => exact h
  | refused => exact h
  | unlinked _ _ links =>
    rw [links] at hlinked
    exact h.of_continue hlinked rfl rfl h.incomplete
  | @made short unknown room selected distance clauses selection _ links =>
    -- first the parents gain a descendant, then the clause is put after the others
    rw [links] at hlinked
    have hparents : WellFormed { store with clauses } := h.of_continue hlinked rfl rfl h.incomplete
    have hsize : ClauseStore.size { store with clauses } = store.size := hlinked.size_eq
    have hid : (store.clauseFor input selected distance).id = size { store with clauses } := hsize.symm
    have hmade := hparents.push (hsize ▸ room) hid (wellFormed_clauseFor short selection distance) unknown
    rw [hsize] at hmade
    exact hmade

/-- Every call keeps a store well formed, also one that stops with a fault. -/
theorem WellFormed.perform {store : ClauseStore} (h : store.WellFormed) (call : StoreCall) :
    (store.perform call).1.WellFormed :=
  perform_induction (motive := WellFormed) store call
    (fun later input hlater => (later.create_outcome input).wellFormed hlater)
    (fun later id extra hlater =>
      hlater.of_continue (later.extendDescendants_continue id extra) rfl rfl hlater.incomplete)
    (fun _ _ _ _ => h.of_continue (.refl _) rfl rfl h.incomplete)
    (fun _ _ _ _ => h.of_continue (.refl _) rfl rfl h.incomplete) h

theorem wellFormed_bare (ordering : TermOrder) (selector : Selector) :
    (bare ordering selector).WellFormed where
  numbered := by
    intro id clause hget
    cases hget
  table := by
    intro key id
    refine iff_of_false ?_ ?_
    · rw [bare, Std.HashMap.getElem?_empty]
      exact Option.some_ne_none id |>.symm
    · rintro ⟨clause, hget, -⟩
      cases hget
  clauses := by
    intro id clause hget
    cases hget
  bounded := Nat.zero_le _
  created := rfl
  incomplete := iff_of_false Bool.false_ne_true (Nat.lt_irrefl 0)

theorem wellFormed_new (ordering : TermOrder) (selector : Selector) :
    (new ordering selector).WellFormed :=
  ((bare ordering selector).create_outcome _).wellFormed (wellFormed_bare ordering selector)

/-- Every run keeps a store well formed. -/
theorem wellFormed_performAll {store : ClauseStore} (h : store.WellFormed) (calls : List StoreCall) :
    (store.performAll calls).WellFormed :=
  performAll_induction (motive := WellFormed) (fun _ call hstore => hstore.perform call) store calls h

/-! ## The trivial clause -/

/-- A clause whose key no clause has is made. -/
theorem WellFormed.perform_create {store : ClauseStore} (h : store.WellFormed)
    (input : ClauseInput) (id : ClauseId) (short : input.literals.length ≤ LiteralSet.capacity)
    (hnew : ∀ clause ∈ store.clauses.toList, clause.key ≠ store.keyFor input)
    (hok : (store.createNew input (canonicalLiterals input.literals)).2 = .ok id) :
    store.perform (.create input) =
      ((store.createNew input (canonicalLiterals input.literals)).1, .ok ()) := by
  have hunknown : store.table[store.keyFor input]? = none := by
    refine Option.eq_none_iff_forall_ne_some.2 fun id hid => ?_
    obtain ⟨clause, hget, hkey⟩ := (h.table _ id).1 hid
    exact hnew clause (Array.mem_toList_iff.2 (Array.mem_of_getElem? hget)) hkey
  rw [ClauseStore.perform, create_eq_createNew short hunknown]
  dsimp only
  rw [hok]
  rfl

/-- A clause whose key a clause has is that clause. -/
theorem WellFormed.create_known {store : ClauseStore} (h : store.WellFormed)
    {input : ClauseInput} {id : ClauseId} {clause : Clause}
    (short : input.literals.length ≤ LiteralSet.capacity)
    (hget : store.get? id = some clause) (hkey : clause.key = store.keyFor input) :
    store.create input =
      ({ store with stats := { store.stats with hits := store.stats.hits + 1 } }, .ok id) := by
  have hknown : store.table[store.keyFor input]? = some id := (h.table _ id).2 ⟨clause, hget, hkey⟩
  have hliterals : clause.literals = canonicalLiterals input.literals :=
    congrArg ClauseKey.literals hkey
  rw [keyFor] at hknown
  rw [create, if_neg (Nat.not_lt.2 short)]
  dsimp only
  rw [hknown]
  dsimp only
  rw [get_eq_ok_iff.2 hget]
  dsimp only
  rw [if_pos hliterals]

/-! ## Faults -/

end ClauseStore

namespace Selection

theorem isDominated_onlyOverflows (order : TermOrder) (e : Literal × Nat) (ds : List (Literal × Nat)) :
    OnlyOverflows (isDominated order e ds) := by
  induction ds with
  | nil => exact .ok false
  | cons d ds ih =>
    rw [isDominated]
    split
    · exact ih
    · refine (order.compareMultisets_onlyOverflows _ _).bind fun c => ?_
      split
      · exact .ok true
      · exact ih

theorem undominated_onlyOverflows (order : TermOrder) (all es : List (Literal × Nat)) :
    OnlyOverflows (undominated order all es) := by
  induction es with
  | nil => exact .ok []
  | cons e es ih =>
    exact (isDominated_onlyOverflows order e all).bind fun _ => ih.bind fun _ => .ok _

/-- The undominated members are found exactly when this is decided for each member. -/
theorem undominated_eq_ok_iff {order : TermOrder} {all es rest : List (Literal × Nat)} :
    undominated order all es = .ok rest ↔ (∀ e ∈ es, ∃ b, isDominated order e all = .ok b) ∧
      rest = es.filter fun e => isDominated order e all = .ok false := by
  induction es generalizing rest with
  | nil =>
    rw [undominated, Except.ok.injEq, eq_comm]
    exact (and_iff_right fun _ he => absurd he List.not_mem_nil).symm
  | cons e es ih =>
    rw [undominated, Fault.bind_eq_ok, List.forall_mem_cons]
    constructor
    · rintro ⟨b, hb, hafter⟩
      obtain ⟨kept, hkept, hend⟩ := Fault.bind_eq_ok.1 hafter
      obtain ⟨hdecided, rfl⟩ := ih.1 hkept
      cases hend
      refine ⟨⟨⟨b, hb⟩, hdecided⟩, ?_⟩
      rw [List.filter_cons, hb]
      cases b <;> rfl
    · rintro ⟨⟨⟨b, hb⟩, hdecided⟩, rfl⟩
      refine ⟨b, hb, Fault.bind_eq_ok.2 ⟨_, ih.2 ⟨hdecided, rfl⟩, ?_⟩⟩
      rw [List.filter_cons, hb]
      cases b <;> rfl

theorem heaviest?_mem {es : List (Literal × Nat)} {e : Literal × Nat} (h : heaviest? es = some e) :
    e ∈ es := by
  induction es with
  | nil => cases h
  | cons d es ih =>
    rw [heaviest?] at h
    split at h
    · cases h
      exact List.mem_cons_self
    · next best hbest =>
      split at h
      · cases h
        exact List.mem_cons_self
      · cases h
        exact List.mem_cons_of_mem d (ih hbest)

/-- Indices of negative literals fit in a set when the clause is not too long. -/
theorem ofList_onlyOverflows {literals : List Literal}
    (short : literals.length ≤ LiteralSet.capacity) {es : List (Literal × Nat)}
    (hes : ∀ e ∈ es, e ∈ negatives literals) : OnlyOverflows (LiteralSet.ofList (es.map (·.2))) := by
  have hfits : ∀ i ∈ es.map (·.2), i < LiteralSet.capacity := by
    rw [List.forall_mem_map]
    intro e he
    have hmem : e ∈ literals.zipIdx := List.mem_of_mem_filter (hes e he)
    have hlt := List.snd_lt_of_mem_zipIdx hmem
    omega
  obtain ⟨set, hset⟩ := LiteralSet.exists_insertAll hfits .empty
  rw [LiteralSet.ofList, hset]
  exact .ok set

/-- A strategy picks literals of a clause that is not too long, or stops at a weight that does not fit. -/
theorem select_onlyOverflows (strategy : Selection) (order : TermOrder) {literals : List Literal}
    (short : literals.length ≤ LiteralSet.capacity) :
    OnlyOverflows (strategy.select order literals) := by
  cases strategy with
  | none => exact .ok LiteralSet.empty
  | allNegative => exact ofList_onlyOverflows short fun _ he => he
  | negMaxWeight =>
    refine (undominated_onlyOverflows order _ _).bind_of_eq_ok fun maximal hmaximal => ?_
    refine ofList_onlyOverflows short fun e he => ?_
    rw [(undominated_eq_ok_iff.1 hmaximal).2] at he
    exact List.mem_of_mem_filter (heaviest?_mem (Option.mem_toList.1 he))

end Selection

/-- A selector gives a set of indices for a clause that is not too long, or stops at a weight that does not
fit. -/
theorem Selector.select_onlyOverflows (selector : Selector) (order : TermOrder)
    {literals : List Literal} (short : literals.length ≤ LiteralSet.capacity) :
    OnlyOverflows (selector.select order literals) := by
  cases selector with
  | preset strategy => exact strategy.select_onlyOverflows order short
  | custom name select => exact .ok _

namespace ClauseStore

theorem selectionFor_onlyOverflows (store : ClauseStore) {literals : List Literal}
    (short : literals.length ≤ LiteralSet.capacity) (explicit : Option LiteralSet) :
    OnlyOverflows (store.selectionFor literals explicit) := by
  cases explicit with
  | some set => exact .ok _
  | none => exact (store.selector.select_onlyOverflows store.ordering short).bind fun _ => .ok _

/-- Why a call to a store may stop. -/
inductive StopsBy (store : ClauseStore) : Fault → Prop where
  /-- A clause is asked for that the store does not have. -/
  | unknown {index : ClauseId} (absent : store.size ≤ index) :
    StopsBy store (.unknownClause store.size index)
  /-- A weight does not fit. -/
  | overflow : StopsBy store .weightOverflow
  /-- There is no number left for a clause. -/
  | full (ids : store.size = idBound) : StopsBy store .idsExhausted
  /-- There is no number left for an epoch. -/
  | last (epochs : epochBound ≤ store.epoch + 1) : StopsBy store .epochOverflow

theorem get_stopsBy (store : ClauseStore) (id : ClauseId) : FaultsOnly store.StopsBy (store.get id) := by
  rw [get]
  split
  · exact .ok _
  · next hnone =>
    intro fault hfault
    cases hfault
    exact .unknown (Array.getElem?_eq_none_iff.1 hnone)

theorem distances_stopsBy (store : ClauseStore) (ids : List ClauseId) :
    FaultsOnly store.StopsBy (store.distances ids) := by
  induction ids with
  | nil => exact .ok []
  | cons id ids ih => exact (store.get_stopsBy id).bind fun _ => ih.bind fun _ => .ok _

theorem distanceFor_stopsBy (store : ClauseStore) (role : ClauseRole) (parents : List ClauseId) :
    FaultsOnly store.StopsBy (store.distanceFor role parents) := by
  rw [distanceFor]
  split
  · exact .ok _
  · exact (store.distances_stopsBy parents).bind fun _ => .ok _

/-- Linking stops at a parent that is not among the clauses, whose number it does not change. -/
theorem linkParents_fault {clauses linked : Array Clause} {id : ClauseId} {parents : List ClauseId}
    {fault : Fault} (h : linkParents clauses id parents = (linked, some fault)) :
    ∃ index, clauses.size ≤ index ∧ fault = .unknownClause clauses.size index := by
  induction parents generalizing clauses with
  | nil => cases h
  | cons parent parents ih =>
    rw [linkParents] at h
    split at h
    · have hfault := ih h
      rwa [Array.size_modify] at hfault
    · next hparent =>
      cases h
      exact ⟨parent, Nat.le_of_not_lt hparent, rfl⟩

/-- A creation stops only for one of the causes: where the table leads to a clause, it has the literals that
were asked for. -/
theorem CreateOutcome.stopsBy {store later : ClauseStore} {input : ClauseInput}
    {result : Except Fault ClauseId} (houtcome : CreateOutcome store input later result)
    (hstore : store.WellFormed) : FaultsOnly store.StopsBy result := by
  cases houtcome with
  | oversized => exact .ok _
  | shared => exact .ok _
  | made => exact .ok _
  | mismatched _ known other =>
    obtain ⟨clause, hget, hkey⟩ := hstore.tableSound _ _ known
    exact absurd (congrArg ClauseKey.literals hkey) (other clause hget)
  | refused short _ cause =>
    rcases cause with hid | hselection | hdistance
    · obtain ⟨hfull, rfl⟩ := nextId_eq_error_iff.1 hid
      intro fault hfault
      cases hfault
      exact .full (Nat.le_antisymm hstore.bounded hfull)
    · have hshort : (canonicalLiterals input.literals).length ≤ LiteralSet.capacity := by
        rwa [length_canonicalLiterals]
      obtain rfl := store.selectionFor_onlyOverflows hshort input.selected _ hselection
      intro fault hfault
      cases hfault
      exact .overflow
    · exact (store.distanceFor_stopsBy _ _).error hdistance
  | unlinked _ _ links =>
    obtain ⟨index, habsent, rfl⟩ := linkParents_fault links
    intro fault hfault
    cases hfault
    exact .unknown habsent

variable {store : ClauseStore}

/-- Making an instance stops only as a creation does. -/
theorem WellFormed.applySubstitution_stopsBy (h : store.WellFormed) (id : ClauseId) (σ : Substitution)
    (scope : Nat) : FaultsOnly store.StopsBy (store.applySubstitution id σ scope).2 := by
  have houtcome := store.applySubstitution_outcome id σ scope
  generalize (store.applySubstitution id σ scope).1 = later at houtcome
  generalize (store.applySubstitution id σ scope).2 = result at houtcome ⊢
  cases houtcome with
  | unknown absent => exact (store.get_stopsBy id).error absent
  | stopped _ created =>
    exact ((store.create_outcome _).stopsBy h).error (congrArg Prod.snd created)
  | same => exact .ok id
  | other => exact .ok _

/-- Making a clause again stops only as a creation does. -/
theorem WellFormed.rederive_stopsBy (h : store.WellFormed) (id : ClauseId) :
    FaultsOnly store.StopsBy (store.rederive id).2 := by
  have houtcome := store.rederive_outcome id
  generalize (store.rederive id).1 = later at houtcome
  generalize (store.rederive id).2 = result at houtcome ⊢
  cases houtcome with
  | unknown absent => exact (store.get_stopsBy id).error absent
  | current => exact .ok id
  | again => exact (store.create_outcome _).stopsBy h

/-- Exchanging a setting stops only where the next epoch has no number. -/
theorem nextEpoch_stopsBy {later : ClauseStore} (h : later.epoch = store.epoch) :
    FaultsOnly store.StopsBy later.nextEpoch.2 := by
  rw [nextEpoch]
  split
  · exact .ok ()
  · next hlast =>
    intro fault hfault
    cases hfault
    exact .last (h ▸ Nat.le_of_not_lt hlast)

/-- Every call stops only for one of the causes. -/
theorem WellFormed.perform_stopsBy (h : store.WellFormed) (call : StoreCall) :
    FaultsOnly store.StopsBy (store.perform call).2 := by
  cases call with
  | create input => exact ((store.create_outcome input).stopsBy h).map _
  | applySubstitution id σ scope => exact (h.applySubstitution_stopsBy id σ scope).map _
  | rederive id => exact (h.rederive_stopsBy id).map _
  | setOrdering ordering => exact nextEpoch_stopsBy rfl
  | setSelector selector => exact nextEpoch_stopsBy rfl

/-! ## All runs -/

end ClauseStore

end GivenClause
