import GivenClause.Proofs.Clause.StoreRuns
import GivenClause.Proofs.Order.ComparisonLaws
import GivenClause.Proofs.Retrieval.FeatureContents
import GivenClause.Proofs.Retrieval.TreeRuns
import GivenClause.Retrieval.UnitRewrite

/-! # Contents of rewrite indices

A unit equation is stored under its sides. Under a Knuth–Bendix ordering these are the sides than which the
other is not greater, and a side that is the greater one is marked as oriented. The index remembers what it
stored for a clause, and its tree holds exactly what is remembered, so that a clause can always be taken out.

* `Clause.eq_of_mem_rewriteRules` says what a rule of a clause is, under any ordering, and
  `Clause.mem_rewriteRules` which rules there are under a Knuth–Bendix ordering;
* `RewriteIndex.Sound` ties the tree to what is remembered;
* `RewriteIndex.Sound.insertAll` and `RewriteIndex.Sound.exists_eraseAll` for clauses added and taken
  out. -/

namespace GivenClause

open DiscriminationTree (entryOf)

/-! ## The rules of a clause -/

/-- The term on a side of an equation. -/
def Side.pick : Side → (lhs rhs : Term) → Term
  | .left, lhs, _ => lhs
  | .right, _, rhs => rhs

namespace Clause

variable {clause : Clause} {order : TermOrder} {rules : List (Term × RewriteEntry)}

/-- A clause that is no unit equation gives no rules. -/
theorem rewriteRules_eq_nil (h : ∀ lhs rhs, clause.literals ≠ [.equation lhs rhs true]) :
    clause.rewriteRules order = .ok [] := by
  rw [rewriteRules]
  split
  · next lhs rhs heq => exact absurd heq (h lhs rhs)
  · rfl

/-- Every rule of a unit equation belongs to the clause and is stored under the side that it rewrites. -/
theorem eq_of_mem_rewriteRules (h : clause.rewriteRules order = .ok rules) {lhs rhs : Term}
    (hunit : clause.literals = [.equation lhs rhs true]) {t : Term} {entry : RewriteEntry}
    (hmem : (t, entry) ∈ rules) : entry.clause = clause.id ∧ t = entry.side.pick lhs rhs := by
  rw [rewriteRules, hunit] at h
  obtain ⟨c, -, hrules⟩ := Fault.bind_eq_ok.1 h
  cases c <;> cases hrules <;> simp only [List.mem_cons, List.not_mem_nil, or_false] at hmem
  case gt | lt =>
    cases hmem
    exact ⟨rfl, rfl⟩
  all_goals
    obtain hmem | hmem := hmem <;> cases hmem <;> exact ⟨rfl, rfl⟩

/-- Under a Knuth–Bendix ordering a unit equation is stored under a side unless the other side is greater,
and the rule is oriented exactly when the side is greater than the other. -/
theorem mem_rewriteRules {kbo : Kbo} (h : clause.rewriteRules kbo = .ok rules) {lhs rhs : Term}
    (hunit : clause.literals = [.equation lhs rhs true]) {t : Term} {entry : RewriteEntry} :
    (t, entry) ∈ rules ↔ entry.clause = clause.id ∧ t = entry.side.pick lhs rhs ∧
      ¬ kbo.Greater (entry.side.pick rhs lhs) (entry.side.pick lhs rhs) ∧
      (entry.oriented = true ↔ kbo.Greater (entry.side.pick lhs rhs) (entry.side.pick rhs lhs)) := by
  rw [rewriteRules, hunit] at h
  obtain ⟨c, hcompare, hrules⟩ := Fault.bind_eq_ok.1 h
  have htells := (Kbo.compare_eq_ok_iff.1 hcompare).2
  obtain ⟨id, side, oriented⟩ := entry
  cases htells with
  | eq heq =>
    have hself : ∀ u, ¬ kbo.Greater u u := fun u hu => hu.ne rfl
    cases hrules
    cases side <;> cases oriented <;> simp [Side.pick, heq, hself, and_comm]
  | gt hgreater =>
    have hnot := hgreater.asymm
    cases hrules
    cases side <;> cases oriented <;> simp [Side.pick, hgreater, hnot, and_comm]
  | lt hless =>
    have hnot := hless.asymm
    cases hrules
    cases side <;> cases oriented <;> simp [Side.pick, hless, hnot, and_comm]
  | incomparable hne hgreater hless =>
    cases hrules
    cases side <;> cases oriented <;> simp [Side.pick, hgreater, hless, and_comm]

/-- Only unit equations give rules. -/
theorem exists_unit_of_rewriteRules (h : clause.rewriteRules order = .ok rules) (hne : rules ≠ []) :
    ∃ lhs rhs, clause.literals = [.equation lhs rhs true] := by
  by_contra hunit
  simp only [not_exists] at hunit
  rw [rewriteRules_eq_nil hunit] at h
  cases h
  exact hne rfl

/-- Every unit equation gives a rule. -/
theorem rewriteRules_ne_nil (h : clause.rewriteRules order = .ok rules) {lhs rhs : Term}
    (hunit : clause.literals = [.equation lhs rhs true]) : rules ≠ [] := by
  rw [rewriteRules, hunit] at h
  obtain ⟨c, -, hrules⟩ := Fault.bind_eq_ok.1 h
  cases c <;> cases hrules <;> simp

end Clause

/-- A clause of the store is a single positive equation. -/
def ClauseStore.HasUnitEquation (store : ClauseStore) (id : ClauseId) : Prop :=
  ∃ clause lhs rhs, store.get? id = some clause ∧ clause.literals = [.equation lhs rhs true]

/-- Whether a known clause is a unit equation does not change. -/
theorem ClauseStore.Extends.hasUnitEquation_iff {store later : ClauseStore} (h : store.Extends later)
    {id : ClauseId} {clause : Clause} (hknown : store.get? id = some clause) :
    later.HasUnitEquation id ↔ store.HasUnitEquation id := by
  obtain ⟨clause', hget, hcontinues⟩ := h.continues id clause hknown
  rw [ClauseStore.HasUnitEquation, ClauseStore.HasUnitEquation, hknown, hget]
  simp only [Option.some.injEq, ← hcontinues.literals_eq, exists_and_left, exists_eq_left']

/-- What a tree stores can be taken out of it. -/
theorem DiscriminationTree.Stores.exists_erase? {α : Type} [DecidableEq α] {tree : DiscriminationTree α}
    {stored : Multiset (List FlatKey × α)} {e : Term × α} (h : tree.Stores (entryOf e ::ₘ stored)) :
    ∃ later, tree.erase? e.1 e.2 = some later ∧ later.Stores stored := by
  obtain ⟨later, hlater⟩ := h.sound.exists_erase? (h.mem_iff.2 (Multiset.mem_cons_self _ _))
  refine ⟨later, hlater, h.sound.erase? hlater, ?_⟩
  rw [← Multiset.cons_inj_right (entryOf e), ← h.contents_eq, Multiset.cons_coe, Multiset.coe_eq_coe]
  exact cons_contents_erase?_perm hlater

namespace RewriteIndex

/-- The clauses of the index in order of insertion. -/
def ids (index : RewriteIndex) : List ClauseId :=
  index.placed.map (·.1)

theorem contains_iff {index : RewriteIndex} {id : ClauseId} :
    index.contains id = true ↔ id ∈ index.ids := by
  rw [contains, isSome_lookup_iff]
  rfl

/-- All rules that are remembered, clause by clause. -/
def recorded (index : RewriteIndex) : List (Term × RewriteEntry) :=
  index.placed.flatMap (·.2)

/-- The tree holds exactly what is remembered for the clauses of the index. -/
structure Sound (index : RewriteIndex) : Prop where
  /-- A clause is in the index at most once. -/
  nodup : index.ids.Nodup
  /-- The tree stores the remembered rules. -/
  stores : index.tree.Stores (index.recorded.map entryOf : Multiset (List FlatKey × RewriteEntry))

theorem sound_empty : empty.Sound :=
  ⟨List.nodup_nil, .empty⟩

/-- What is remembered for a clause is what the clause gives under an ordering, and is not nothing. -/
def RuledIn (store : ClauseStore) (order : TermOrder) (e : ClauseId × List (Term × RewriteEntry)) : Prop :=
  ∃ clause, store.get? e.1 = some clause ∧ clause.rewriteRules order = .ok e.2 ∧ e.2 ≠ []

theorem RuledIn.extends {store later : ClauseStore} {order : TermOrder}
    {e : ClauseId × List (Term × RewriteEntry)} (h : RuledIn store order e) (hext : store.Extends later) :
    RuledIn later order e := by
  obtain ⟨clause, hget, hrules, hne⟩ := h
  obtain ⟨clause', hget', hcontinues⟩ := hext.continues e.1 clause hget
  refine ⟨clause', hget', ?_, hne⟩
  rw [hcontinues.same]
  exact hrules

theorem RuledIn.hasUnitEquation {store : ClauseStore} {order : TermOrder}
    {e : ClauseId × List (Term × RewriteEntry)} (h : RuledIn store order e) :
    store.HasUnitEquation e.1 := by
  obtain ⟨clause, hget, hrules, hne⟩ := h
  obtain ⟨lhs, rhs, hunit⟩ := clause.exists_unit_of_rewriteRules hrules hne
  exact ⟨clause, lhs, rhs, hget, hunit⟩

/-! ## Adding clauses -/

/-- The index with one more clause, given its rules. -/
def withRules (index : RewriteIndex) (id : ClauseId) (rules : List (Term × RewriteEntry)) :
    RewriteIndex where
  tree := index.tree.insertAll rules
  placed := index.placed ++ [(id, rules)]

theorem ids_withRules (index : RewriteIndex) (id : ClauseId) (rules : List (Term × RewriteEntry)) :
    (index.withRules id rules).ids = index.ids ++ [id] := by
  rw [ids, withRules, List.map_append]
  rfl

/-- Everything that adding a clause can do. -/
theorem insert_cases {index later : RewriteIndex} {store : ClauseStore} {id : ClauseId} {taken : Bool}
    (h : index.insert store id = .ok (later, taken)) :
    id ∈ index.ids ∧ later = index ∨
    (∃ clause, store.get? id = some clause ∧ ¬ store.HasUnitEquation id ∧ later = index) ∨
    id ∉ index.ids ∧ ∃ rules, RuledIn store store.ordering (id, rules) ∧
      later = index.withRules id rules := by
  rw [insert] at h
  split at h
  · next hcontains =>
    cases h
    exact Or.inl ⟨contains_iff.1 hcontains, rfl⟩
  · next hcontains =>
    obtain ⟨clause, hget, hrest⟩ := Fault.bind_eq_ok.1 h
    obtain ⟨rules, hrules, hend⟩ := Fault.bind_eq_ok.1 hrest
    have hget := ClauseStore.get_eq_ok_iff.1 hget
    refine Or.inr ?_
    split at hend
    · next hempty =>
      cases hend
      refine Or.inl ⟨clause, hget, ?_, rfl⟩
      rintro ⟨clause', lhs, rhs, hget', hunit⟩
      rw [hget, Option.some.injEq] at hget'
      subst hget'
      exact clause.rewriteRules_ne_nil hrules hunit (List.isEmpty_iff.1 hempty)
    · next hempty =>
      cases hend
      refine Or.inr ⟨fun hmem => hcontains (contains_iff.2 hmem), rules, ⟨clause, hget, hrules, ?_⟩, rfl⟩
      exact fun hnil => hempty (List.isEmpty_iff.2 hnil)

theorem Sound.withRules {index : RewriteIndex} (h : index.Sound) {id : ClauseId} (hid : id ∉ index.ids)
    (rules : List (Term × RewriteEntry)) : (index.withRules id rules).Sound := by
  constructor
  · rw [ids_withRules, ← InsertionOrder.insertNew_of_not_mem hid]
    exact InsertionOrder.nodup_insertNew id h.nodup
  · have hrecorded : (index.withRules id rules).recorded = index.recorded ++ rules := by
      rw [recorded, RewriteIndex.withRules, List.flatMap_append, List.flatMap_singleton]
      rfl
    have hstores := h.stores.insertAll rules
    rwa [Multiset.coe_add, ← List.map_append, Multiset.coe_eq_coe.2
      (List.perm_append_comm.map entryOf), ← hrecorded] at hstores

/-- What adding clauses does to an index: the unit equations among them are in it, and their rules are
those that the store gives. -/
structure AddedTo (store : ClauseStore) (requested : List ClauseId) (index later : RewriteIndex) :
    Prop where
  /-- The tree holds what is remembered. -/
  sound : later.Sound
  /-- The requested clauses are known. -/
  known : ∀ id ∈ requested, id ∈ index.ids ∨ ∃ clause, store.get? id = some clause
  /-- The requested clauses that are unit equations are in the index. -/
  mem_ids : ∀ id, id ∈ later.ids ↔ id ∈ index.ids ∨ id ∈ requested ∧ store.HasUnitEquation id
  /-- What is remembered is what was remembered before or is what the store gives. -/
  ruled : ∀ e ∈ later.placed, e ∈ index.placed ∨ RuledIn store store.ordering e

/-- Adding one clause. -/
theorem Sound.insert {index later : RewriteIndex} (h : index.Sound) {store : ClauseStore} {id : ClauseId}
    {taken : Bool} (hinsert : index.insert store id = .ok (later, taken)) :
    AddedTo store [id] index later := by
  obtain ⟨hid, rfl⟩ | ⟨clause, hget, hunit, rfl⟩ | ⟨hid, rules, hruled, rfl⟩ := insert_cases hinsert
  · refine ⟨h, by simp [hid], fun other => ?_, fun e he => Or.inl he⟩
    simp only [List.mem_singleton, iff_self_or]
    rintro ⟨rfl, -⟩
    exact hid
  · refine ⟨h, by simp [hget], fun other => ?_, fun e he => Or.inl he⟩
    simp only [List.mem_singleton, iff_self_or]
    rintro ⟨rfl, hother⟩
    exact absurd hother hunit
  · have hunit : store.HasUnitEquation id := hruled.hasUnitEquation
    refine ⟨h.withRules hid rules, ?_, fun other => ?_, ?_⟩
    · obtain ⟨clause, hget, -⟩ := hruled
      simp [show store.get? id = some clause from hget]
    · rw [ids_withRules, List.mem_append, List.mem_singleton]
      refine or_congr_right ⟨?_, And.left⟩
      rintro rfl
      exact ⟨rfl, hunit⟩
    · intro e he
      rw [RewriteIndex.withRules, List.mem_append, List.mem_singleton] at he
      rcases he with he | rfl
      · exact Or.inl he
      · exact Or.inr hruled

/-- Adding clauses in two portions. -/
theorem AddedTo.trans {store : ClauseStore} {requested requested' : List ClauseId}
    {a b c : RewriteIndex} (hab : AddedTo store requested a b) (hbc : AddedTo store requested' b c) :
    AddedTo store (requested ++ requested') a c where
  sound := hbc.sound
  known id hid := by
    rcases List.mem_append.1 hid with hid | hid
    · exact hab.known id hid
    · rcases hbc.known id hid with hmem | hknown
      · refine ((hab.mem_ids id).1 hmem).imp_right ?_
        rintro ⟨-, clause, -, -, hget, -⟩
        exact ⟨clause, hget⟩
      · exact Or.inr hknown
  mem_ids id := by
    rw [hbc.mem_ids, hab.mem_ids, List.mem_append, or_assoc, ← or_and_right]
  ruled e he := by
    rcases hbc.ruled e he with hmem | hruled
    · exact hab.ruled e hmem
    · exact Or.inr hruled

/-- Adding clauses keeps the tree in step with what is remembered. -/
theorem Sound.insertAll {index later : RewriteIndex} (h : index.Sound) {store : ClauseStore}
    {requested : List ClauseId} {count : Nat}
    (hinsert : index.insertAll store requested = .ok (later, count)) :
    AddedTo store requested index later := by
  induction requested generalizing index count with
  | nil =>
    cases hinsert
    exact ⟨h, nofun, by simp, fun e he => Or.inl he⟩
  | cons id requested ih =>
    obtain ⟨⟨next, taken⟩, hfirst, hmore⟩ := Fault.bind_eq_ok.1 hinsert
    obtain ⟨⟨last, more⟩, hrest, hend⟩ := Fault.bind_eq_ok.1 hmore
    cases hend
    have hnext := h.insert hfirst
    exact hnext.trans (ih hnext.sound hrest)

/-! ## Taking clauses out -/

/-- Rules that a tree stores can be taken out of it. -/
theorem exists_eraseRules {tree : DiscriminationTree RewriteEntry}
    {stored : Multiset (List FlatKey × RewriteEntry)} (id : ClauseId) (rules : List (Term × RewriteEntry))
    (h : tree.Stores ((rules.map entryOf : Multiset (List FlatKey × RewriteEntry)) + stored)) :
    ∃ later, eraseRules id tree rules = .ok later ∧ later.Stores stored := by
  induction rules generalizing tree with
  | nil => exact ⟨tree, rfl, by simpa using h⟩
  | cons rule rules ih =>
    rw [List.map_cons, ← Multiset.cons_coe, Multiset.cons_add] at h
    obtain ⟨next, hnext, hstores⟩ := h.exists_erase?
    obtain ⟨later, hlater, hrest⟩ := ih hstores
    refine ⟨later, ?_, hrest⟩
    rw [eraseRules, hnext]
    exact hlater

/-- An index reduced to the clauses that pass a test, which keep their rules. -/
structure ReducedTo (keep : ClauseId → Bool) (index later : RewriteIndex) : Prop where
  /-- The tree holds what is remembered. -/
  sound : later.Sound
  /-- The kept clauses stay with their rules. -/
  placed : later.placed = index.placed.filter fun e => keep e.1

theorem ReducedTo.ids {keep : ClauseId → Bool} {index later : RewriteIndex}
    (h : ReducedTo keep index later) : later.ids = index.ids.filter keep := by
  rw [RewriteIndex.ids, RewriteIndex.ids, h.placed, List.filter_map]
  rfl

/-- A clause can be taken out whether it is in the index or not. -/
theorem Sound.exists_erase {index : RewriteIndex} (h : index.Sound) (id : ClauseId) :
    ∃ later taken, index.erase id = .ok (later, taken) ∧ ReducedTo (fun other => other ≠ id) index later := by
  rw [RewriteIndex.erase]
  cases hlookup : index.placed.lookup id with
  | none =>
    refine ⟨index, false, rfl, h, (List.filter_eq_self.2 fun e he => ?_).symm⟩
    have hne : id ≠ e.1 := by simpa using List.lookup_eq_none_iff.1 hlookup e he
    simpa using hne.symm
  | some rules =>
    have hsplit := perm_cons_filter_ne h.nodup (mem_of_lookup_eq_some hlookup)
    -- what is remembered for the clause and for the others makes up the tree
    have hstores := h.stores
    rw [recorded, Multiset.coe_eq_coe.2 ((hsplit.flatMap_right _).map entryOf), List.flatMap_cons,
      List.map_append, ← Multiset.coe_add] at hstores
    obtain ⟨tree, htree, hrest⟩ := exists_eraseRules id rules hstores
    refine ⟨_, true, Fault.bind_eq_ok.2 ⟨tree, htree, rfl⟩, ⟨?_, hrest⟩, rfl⟩
    exact h.nodup.sublist (List.filter_sublist.map _)

/-- Clauses can always be taken out: those that are in the index are gone, and nothing else changes. -/
theorem Sound.exists_eraseAll {index : RewriteIndex} (h : index.Sound) (requested : List ClauseId) :
    ∃ later count, index.eraseAll requested = .ok (later, count) ∧
      ReducedTo (fun id => id ∉ requested) index later := by
  induction requested generalizing index with
  | nil => exact ⟨index, 0, rfl, h, (List.filter_eq_self.2 fun _ _ => by simp).symm⟩
  | cons id requested ih =>
    obtain ⟨next, taken, hnext, hreduced⟩ := h.exists_erase id
    obtain ⟨later, count, hlater, hreduced'⟩ := ih hreduced.sound
    refine ⟨later, taken.toNat + count, ?_, hreduced'.sound, ?_⟩
    · exact Fault.bind_eq_ok.2 ⟨_, hnext, Fault.bind_eq_ok.2 ⟨_, hlater, rfl⟩⟩
    · rw [hreduced'.placed, hreduced.placed, List.filter_filter]
      refine List.filter_congr fun e _ => ?_
      by_cases heq : e.1 = id <;> simp [heq]

end RewriteIndex

end GivenClause
