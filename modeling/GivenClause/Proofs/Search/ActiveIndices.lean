import GivenClause.Proofs.Clause.StoreRuns
import GivenClause.Proofs.Retrieval.FeatureContents
import GivenClause.Proofs.Retrieval.TreeContents
import GivenClause.Search.Active

/-! # Coherence of the active set

Every active clause remembers what was stored for it. The indices hold exactly what is remembered
(`ActiveSet.Indexed`), whatever clauses were added and taken out before. What is remembered for a clause is
a function of the clause and the ordering (`ActiveSet.PlacedIn`), and a growing store changes neither.

* `placedAt` is what placements put into one index;
* `ActiveSet.Indexed` is the invariant, kept by `ActiveSet.add` and `ActiveSet.remove`;
* `ActiveSet.Indexed.exists_remove`: clauses can always be taken out;
* `ActiveSet.Indexed.snapshot_eq`: sets that remember the same have the same snapshot. -/

namespace GivenClause

open InsertionOrder

/-! ## The order on entries -/

namespace TermEntry

theorem le_iff {a b : TermEntry} : a.le b = true ↔ ¬ b.rank < a.rank := by
  rw [le, Bool.not_eq_true', decide_eq_false_iff_not]

/-- Different entries have different ranks. -/
theorem rank_injective : Function.Injective rank := by
  intro a b h
  obtain ⟨clause, literal, side, path⟩ := a
  obtain ⟨clause', literal', side', path'⟩ := b
  simp only [rank, List.cons_append, List.nil_append, List.cons.injEq] at h
  obtain ⟨rfl, rfl, hside, rfl⟩ := h
  have hsides : side = side' := by
    cases side <;> cases side' <;> simp_all
  rw [hsides]

theorem le_trans' (a b c : TermEntry) (hab : a.le b = true) (hbc : b.le c = true) :
    a.le c = true := by
  rw [le_iff, not_lt] at hab hbc ⊢
  exact hab.trans hbc

theorem le_total' (a b : TermEntry) : (a.le b || b.le a) = true := by
  rw [Bool.or_eq_true, le_iff, le_iff, not_lt, not_lt]
  exact le_total a.rank b.rank

theorem le_antisymm' (a b : TermEntry) (hab : a.le b = true) (hba : b.le a = true) : a = b := by
  rw [le_iff, not_lt] at hab hba
  exact rank_injective (le_antisymm hab hba)

end TermEntry

/-! ## What placements put into an index -/

/-- The entries that placements put into one index, with the key sequences of their terms. -/
def placedAt (index : TermIndex) (placements : List Placement) : List (List FlatKey × TermEntry) :=
  (placements.filter fun p => p.index = index).map fun p => (p.term.storedKeys, p.entry)

@[simp] theorem placedAt_nil (index : TermIndex) : placedAt index [] = [] := rfl

theorem placedAt_cons_self (p : Placement) (placements : List Placement) :
    placedAt p.index (p :: placements) =
      (p.term.storedKeys, p.entry) :: placedAt p.index placements := by
  rw [placedAt, List.filter_cons_of_pos (by simp), List.map_cons]
  rfl

theorem placedAt_cons_of_ne {index : TermIndex} {p : Placement} (h : p.index ≠ index)
    (placements : List Placement) : placedAt index (p :: placements) = placedAt index placements := by
  rw [placedAt, List.filter_cons_of_neg (by simpa using h)]
  rfl

theorem placedAt_append (index : TermIndex) (placements placements' : List Placement) :
    placedAt index (placements ++ placements') =
      placedAt index placements ++ placedAt index placements' := by
  rw [placedAt, List.filter_append, List.map_append]
  rfl

theorem placedAt_perm (index : TermIndex) {placements placements' : List Placement}
    (h : placements.Perm placements') : (placedAt index placements).Perm (placedAt index placements') :=
  (h.filter _).map _

/-! ## Storing and taking out placements -/

namespace ActiveSet

/-- Two active sets that differ at most in their term indices. -/
structure SameButTrees (active later : ActiveSet) : Prop where
  /-- The same clauses with the same placements. -/
  clauses : later.clauses = active.clauses
  /-- The same feature vectors. -/
  subsumption : later.subsumption = active.subsumption
  /-- The same count of additions. -/
  added : later.added = active.added
  /-- The same count of removals. -/
  removed : later.removed = active.removed

theorem SameButTrees.refl (active : ActiveSet) : active.SameButTrees active :=
  ⟨rfl, rfl, rfl, rfl⟩

theorem SameButTrees.trans {a b c : ActiveSet} (hab : a.SameButTrees b) (hbc : b.SameButTrees c) :
    a.SameButTrees c :=
  ⟨hbc.clauses.trans hab.clauses, hbc.subsumption.trans hab.subsumption,
    hbc.added.trans hab.added, hbc.removed.trans hab.removed⟩

/-- Changing one term index changes nothing else. -/
theorem sameButTrees_modifyTree (active : ActiveSet) (index : TermIndex)
    (f : DiscriminationTree TermEntry → DiscriminationTree TermEntry) :
    active.SameButTrees (active.modifyTree index f) := by
  cases index <;> exact ⟨rfl, rfl, rfl, rfl⟩

@[simp] theorem tree_modifyTree_self (active : ActiveSet) (index : TermIndex)
    (f : DiscriminationTree TermEntry → DiscriminationTree TermEntry) :
    (active.modifyTree index f).tree index = f (active.tree index) := by
  cases index <;> rfl

theorem tree_modifyTree_of_ne {index other : TermIndex} (h : index ≠ other) (active : ActiveSet)
    (f : DiscriminationTree TermEntry → DiscriminationTree TermEntry) :
    (active.modifyTree index f).tree other = active.tree other := by
  cases index <;> cases other <;> simp_all [modifyTree, tree]

/-- The term indices hold the listed entries, index by index, and are as their operations leave
them. -/
def TreesHold (active : ActiveSet) (listed : TermIndex → List (List FlatKey × TermEntry)) : Prop :=
  ∀ index, (active.tree index).Sound ∧ (active.tree index).contents.Perm (listed index)

theorem TreesHold.perm {active : ActiveSet} {listed listed' : TermIndex → List (List FlatKey × TermEntry)}
    (h : active.TreesHold listed) (hperm : ∀ index, (listed index).Perm (listed' index)) :
    active.TreesHold listed' :=
  fun index => ⟨(h index).1, (h index).2.trans (hperm index)⟩

/-- Storing one placement adds its entry to its index. -/
theorem TreesHold.place {active : ActiveSet}
    {listed : TermIndex → List (List FlatKey × TermEntry)} (h : active.TreesHold listed)
    (p : Placement) : (active.place p).TreesHold fun index => placedAt index [p] ++ listed index := by
  intro index
  show ((active.place p).tree index).Sound ∧
    ((active.place p).tree index).contents.Perm (placedAt index [p] ++ listed index)
  rw [ActiveSet.place]
  by_cases hindex : p.index = index
  · subst hindex
    rw [tree_modifyTree_self, placedAt_cons_self, placedAt_nil]
    refine ⟨(h p.index).1.insert p.term p.entry, ?_⟩
    exact (DiscriminationTree.contents_insert_perm _ p.term p.entry).trans ((h p.index).2.cons _)
  · rw [tree_modifyTree_of_ne hindex, placedAt_cons_of_ne hindex, placedAt_nil, List.nil_append]
    exact h index

/-- Storing placements adds their entries and changes nothing but the term indices. -/
theorem TreesHold.foldl_place {active : ActiveSet}
    {listed : TermIndex → List (List FlatKey × TermEntry)} (h : active.TreesHold listed)
    (placements : List Placement) :
    active.SameButTrees (placements.foldl ActiveSet.place active) ∧
      (placements.foldl ActiveSet.place active).TreesHold fun index =>
        placedAt index placements ++ listed index := by
  induction placements generalizing active listed with
  | nil => exact ⟨.refl active, h⟩
  | cons p placements ih =>
    obtain ⟨hsame, hhold⟩ := ih (h.place p)
    refine ⟨(active.sameButTrees_modifyTree p.index _).trans hsame, hhold.perm ?_⟩
    intro index
    -- the entries come in the opposite order, which does not matter for the contents
    have hcons := placedAt_append index [p] placements
    rw [List.singleton_append] at hcons
    rw [hcons, List.append_assoc]
    exact List.perm_append_comm_assoc _ _ _

/-- Taking out placements that the indices hold succeeds: it takes out their entries and changes
nothing but the term indices. -/
theorem TreesHold.exists_displaceAll {active : ActiveSet} (id : ClauseId)
    {listed : TermIndex → List (List FlatKey × TermEntry)} (placements : List Placement)
    (h : active.TreesHold fun index => placedAt index placements ++ listed index) :
    ∃ later, displaceAll id active placements = .ok later ∧ active.SameButTrees later ∧
      later.TreesHold listed := by
  induction placements generalizing active with
  | nil => exact ⟨active, rfl, .refl active, h⟩
  | cons p placements ih =>
    obtain ⟨hsound, hcontents⟩ := h p.index
    dsimp only at hcontents
    rw [placedAt_cons_self, List.cons_append] at hcontents
    have hmem : (p.term.storedKeys, p.entry) ∈ (active.tree p.index).contents :=
      hcontents.mem_iff.2 List.mem_cons_self
    obtain ⟨tree, htree⟩ := hsound.exists_erase? hmem
    -- only the index of `p` changes, and there its entry came first
    have hrest : (active.modifyTree p.index fun _ => tree).TreesHold fun index =>
        placedAt index placements ++ listed index := by
      intro index
      by_cases hindex : p.index = index
      · subst hindex
        rw [tree_modifyTree_self]
        refine ⟨hsound.erase? htree, ?_⟩
        exact ((DiscriminationTree.cons_contents_erase?_perm htree).trans hcontents).cons_inv
      · rw [tree_modifyTree_of_ne hindex]
        have hother := h index
        dsimp only at hother
        rwa [placedAt_cons_of_ne hindex] at hother
    obtain ⟨later, hlater, hsame, hhold⟩ := ih hrest
    refine ⟨later, ?_, (active.sameButTrees_modifyTree p.index _).trans hsame, hhold⟩
    rw [displaceAll, htree]
    exact hlater

/-! ## The invariant -/

/-- All placements that are remembered, clause by clause. -/
def recorded (active : ActiveSet) : List Placement :=
  active.clauses.flatMap (·.2)

/-- The indices hold exactly what is remembered for the clauses of the set. -/
structure Indexed (active : ActiveSet) : Prop where
  /-- A clause is in the set at most once. -/
  nodup : active.ids.Nodup
  /-- The term indices hold the remembered placements. -/
  trees : active.TreesHold fun index => placedAt index active.recorded
  /-- The feature index is as its operations leave it. -/
  features : active.subsumption.Sound
  /-- The feature index holds the clauses of the set. -/
  featured : active.subsumption.vectors.map (·.1) = active.ids

theorem indexed_empty : empty.Indexed where
  nodup := List.nodup_nil
  trees index := by
    cases index <;> exact ⟨DiscriminationTree.sound_empty, List.Perm.refl _⟩
  features := FeatureIndex.sound_empty
  featured := rfl

theorem contains_iff {active : ActiveSet} {id : ClauseId} :
    active.contains id = true ↔ id ∈ active.ids := by
  rw [contains, List.contains_iff_mem]

/-- What is stored for a clause of the store under its ordering. -/
def PlacedIn (store : ClauseStore) (e : ClauseId × List Placement) : Prop :=
  ∃ clause, store.get? e.1 = some clause ∧ clause.placements store.ordering = .ok e.2

/-- The feature vector of a clause of the store. -/
def FeaturedIn (store : ClauseStore) (e : ClauseId × FeatureVector) : Prop :=
  ∃ clause, store.get? e.1 = some clause ∧ e.2 = .of clause.literals

/-- A growing store keeps what is stored for its clauses as long as the ordering is the same. -/
theorem PlacedIn.extends {store later : ClauseStore} {e : ClauseId × List Placement}
    (h : PlacedIn store e) (hext : store.Extends later)
    (hordering : later.ordering = store.ordering) : PlacedIn later e := by
  obtain ⟨clause, hget, hplaced⟩ := h
  obtain ⟨clause', hget', hcontinues⟩ := hext.continues e.1 clause hget
  refine ⟨clause', hget', ?_⟩
  rw [hcontinues.same, hordering]
  exact hplaced

theorem FeaturedIn.extends {store later : ClauseStore} {e : ClauseId × FeatureVector}
    (h : FeaturedIn store e) (hext : store.Extends later) : FeaturedIn later e := by
  obtain ⟨clause, hget, hvector⟩ := h
  obtain ⟨clause', hget', hcontinues⟩ := hext.continues e.1 clause hget
  exact ⟨clause', hget', by rw [hvector, hcontinues.literals_eq]⟩

/-! ## Adding clauses -/

/-- The set with one more clause, given what is stored for it. -/
def withClause (active : ActiveSet) (id : ClauseId) (placements : List Placement)
    (literals : List Literal) : ActiveSet :=
  let placed := placements.foldl place active
  { placed with
    clauses := placed.clauses ++ [(id, placements)]
    subsumption := placed.subsumption.insertLiterals id literals
    added := placed.added + 1 }

/-- Adding a clause of the store that has no feature vector yet. -/
theorem addClause_eq {active : ActiveSet} {store : ClauseStore} {id : ClauseId} {clause : Clause}
    {placements : List Placement} (hindexed : active.Indexed) (hid : id ∉ active.ids)
    (hget : store.get? id = some clause)
    (hplaced : clause.placements store.ordering = .ok placements) :
    active.addClause store id = .ok (active.withClause id placements clause.literals) := by
  have hfound : store.get id = .ok clause := by rw [ClauseStore.get, hget]
  have hsame := (hindexed.trees.foldl_place placements).1
  have hnew : (placements.foldl place active).subsumption.contains id = false := by
    rw [hsame.subsumption, Bool.eq_false_iff, Ne, FeatureIndex.contains_iff, hindexed.featured]
    exact hid
  rw [addClause, hfound]
  simp only [bind, Except.bind, hplaced, FeatureIndex.insert, hnew, hfound]
  rfl

/-- A clause is added only if the store has it and what is stored for it can be computed. -/
theorem exists_of_addClause {active active' : ActiveSet} {store : ClauseStore} {id : ClauseId}
    (h : active.addClause store id = .ok active') :
    ∃ clause placements, store.get? id = some clause ∧
      clause.placements store.ordering = .ok placements := by
  obtain ⟨clause, hget, hrest⟩ := Fault.bind_eq_ok.1 h
  obtain ⟨placements, hplaced, -⟩ := Fault.bind_eq_ok.1 hrest
  exact ⟨clause, placements, ClauseStore.get_eq_ok_iff.1 hget, hplaced⟩

/-- The set with one more clause remembers that clause in addition. -/
theorem withClause_clauses {active : ActiveSet} (hindexed : active.Indexed) (id : ClauseId)
    (placements : List Placement) (literals : List Literal) :
    (active.withClause id placements literals).clauses = active.clauses ++ [(id, placements)] ∧
      (active.withClause id placements literals).subsumption.vectors =
        active.subsumption.vectors ++ [(id, .of literals)] := by
  have hsame := (hindexed.trees.foldl_place placements).1
  rw [withClause]
  dsimp only
  rw [hsame.clauses, hsame.subsumption]
  exact ⟨rfl, rfl⟩

theorem Indexed.withClause {active : ActiveSet} (hindexed : active.Indexed) {id : ClauseId}
    (hid : id ∉ active.ids) (placements : List Placement) (literals : List Literal) :
    (active.withClause id placements literals).Indexed := by
  obtain ⟨hclauses, hvectors⟩ := withClause_clauses hindexed id placements literals
  obtain ⟨hsame, hhold⟩ := hindexed.trees.foldl_place placements
  have hids : (active.withClause id placements literals).ids = active.ids ++ [id] := by
    rw [ids, hclauses, List.map_append]
    rfl
  refine ⟨?_, ?_, ?_, ?_⟩
  · rw [hids, ← insertNew_of_not_mem hid]
    exact nodup_insertNew id hindexed.nodup
  · have hrecorded : (active.withClause id placements literals).recorded =
        active.recorded ++ placements := by
      rw [recorded, hclauses, List.flatMap_append, List.flatMap_singleton]
      rfl
    rw [hrecorded]
    refine TreesHold.perm (show TreesHold _ _ from fun index => hhold index) ?_
    intro index
    rw [placedAt_append]
    exact List.perm_append_comm
  · have hfresh : id ∉ (placements.foldl place active).subsumption.vectors.map (·.1) := by
      rw [hsame.subsumption, hindexed.featured]
      exact hid
    have hfeatures := hindexed.features
    rw [← hsame.subsumption] at hfeatures
    exact hfeatures.insertLiterals hfresh literals
  · rw [hids, hvectors, List.map_append, hindexed.featured]
    rfl

/-- What adding clauses does to a set: the new clauses come last, each once, and what is stored for
them is a function of the store. -/
structure AddedTo (store : ClauseStore) (requested : List ClauseId) (active later : ActiveSet) :
    Prop where
  /-- The indices hold what is remembered. -/
  indexed : later.Indexed
  /-- The requested clauses are in the set. -/
  ids : later.ids = insertAll active.ids requested
  /-- What is remembered is what was remembered before or is stored for a clause of the store. -/
  placed : ∀ e ∈ later.clauses, e ∈ active.clauses ∨ PlacedIn store e
  /-- The same for feature vectors. -/
  featured : ∀ e ∈ later.subsumption.vectors, e ∈ active.subsumption.vectors ∨ FeaturedIn store e

/-- Adding one clause before others. -/
theorem AddedTo.cons {store : ClauseStore} {active later : ActiveSet} {id : ClauseId}
    {requested : List ClauseId} {clause : Clause} {placements : List Placement}
    (hindexed : active.Indexed) (hid : id ∉ active.ids) (hget : store.get? id = some clause)
    (hplaced : clause.placements store.ordering = .ok placements)
    (h : AddedTo store requested (active.withClause id placements clause.literals) later) :
    AddedTo store (id :: requested) active later := by
  obtain ⟨hclauses, hvectors⟩ := withClause_clauses hindexed id placements clause.literals
  refine ⟨h.indexed, ?_, ?_, ?_⟩
  · rw [h.ids, insertAll_cons, insertNew_of_not_mem hid, ActiveSet.ids, hclauses, List.map_append]
    rfl
  · intro e he
    rcases h.placed e he with he | he
    · rw [hclauses, List.mem_append, List.mem_singleton] at he
      rcases he with he | rfl
      · exact Or.inl he
      · exact Or.inr ⟨clause, hget, hplaced⟩
    · exact Or.inr he
  · intro e he
    rcases h.featured e he with he | he
    · rw [hvectors, List.mem_append, List.mem_singleton] at he
      rcases he with he | rfl
      · exact Or.inl he
      · exact Or.inr ⟨clause, hget, rfl⟩
    · exact Or.inr he

/-- Adding clauses keeps the invariant. -/
theorem Indexed.add {active later : ActiveSet} (hindexed : active.Indexed) {store : ClauseStore}
    {requested added : List ClauseId} (h : active.add store requested = .ok (later, added)) :
    AddedTo store requested active later := by
  induction requested generalizing active added with
  | nil =>
    cases h
    exact ⟨hindexed, rfl, fun e he => Or.inl he, fun e he => Or.inl he⟩
  | cons id requested ih =>
    rw [ActiveSet.add] at h
    split at h
    · next hcontains =>
      -- a clause that is there already is passed over
      have hadded := ih hindexed h
      refine ⟨hadded.indexed, ?_, hadded.placed, hadded.featured⟩
      rw [hadded.ids, insertAll_cons, insertNew_of_mem (contains_iff.1 hcontains)]
    · next hcontains =>
      have hid : id ∉ active.ids := fun hmem => hcontains (contains_iff.2 hmem)
      obtain ⟨active', hclause, hrest⟩ := Fault.bind_eq_ok.1 h
      obtain ⟨⟨last, more⟩, hmore, hlast⟩ := Fault.bind_eq_ok.1 hrest
      -- what is stored is determined by the store, so the result is the one with the clause added
      obtain ⟨clause, placements, hget, hplaced⟩ := exists_of_addClause hclause
      rw [addClause_eq hindexed hid hget hplaced] at hclause
      cases hclause
      cases hlast
      exact .cons hindexed hid hget hplaced
        (ih (hindexed.withClause hid placements clause.literals) hmore)

/-- Clauses of the store for which placements can be computed can be added. -/
theorem Indexed.exists_add {active : ActiveSet} (hindexed : active.Indexed) {store : ClauseStore}
    (requested : List ClauseId)
    (h : ∀ id ∈ requested, id ∉ active.ids → ∃ placements, PlacedIn store (id, placements)) :
    ∃ later added, active.add store requested = .ok (later, added) := by
  induction requested generalizing active with
  | nil => exact ⟨active, [], rfl⟩
  | cons id requested ih =>
    have hrest : ∀ other ∈ requested, other ∉ active.ids →
        ∃ placements, PlacedIn store (other, placements) :=
      fun other hother => h other (List.mem_cons_of_mem id hother)
    rw [ActiveSet.add]
    split
    · exact ih hindexed hrest
    · next hcontains =>
      have hid : id ∉ active.ids := fun hmem => hcontains (contains_iff.2 hmem)
      obtain ⟨placements, clause, hget, hplaced⟩ := h id List.mem_cons_self hid
      have hids := (withClause_clauses hindexed id placements clause.literals).1
      obtain ⟨later, added, hlater⟩ := ih (hindexed.withClause hid placements clause.literals) <| by
        intro other hother hnew
        refine hrest other hother fun hmem => hnew ?_
        rw [ActiveSet.ids, hids, List.map_append]
        exact List.mem_append_left _ hmem
      refine ⟨later, id :: added, ?_⟩
      rw [addClause_eq hindexed hid hget hplaced]
      simp only [bind, Except.bind, hlater]

/-! ## Taking clauses out -/

/-- A set reduced to the clauses that pass a test, which keep what is remembered for them. -/
structure ReducedTo (keep : ClauseId → Bool) (active later : ActiveSet) : Prop where
  /-- The indices hold what is remembered. -/
  indexed : later.Indexed
  /-- The kept clauses stay with what is remembered for them. -/
  clauses : later.clauses = active.clauses.filter fun e => keep e.1
  /-- The kept feature vectors stay. -/
  vectors : later.subsumption.vectors = active.subsumption.vectors.filter fun e => keep e.1

theorem ReducedTo.trans {keep keep' : ClauseId → Bool} {a b c : ActiveSet}
    (hab : ReducedTo keep a b) (hbc : ReducedTo keep' b c) :
    ReducedTo (fun id => keep' id && keep id) a c where
  indexed := hbc.indexed
  clauses := by rw [hbc.clauses, hab.clauses, List.filter_filter]
  vectors := by rw [hbc.vectors, hab.vectors, List.filter_filter]

/-- Only the clauses of the set are tested. -/
theorem ReducedTo.congr {keep keep' : ClauseId → Bool} {active later : ActiveSet}
    (h : ReducedTo keep active later) (hindexed : active.Indexed)
    (heq : ∀ id ∈ active.ids, keep id = keep' id) : ReducedTo keep' active later where
  indexed := h.indexed
  clauses := by
    rw [h.clauses]
    exact List.filter_congr fun e he => heq e.1 (List.mem_map_of_mem he)
  vectors := by
    rw [h.vectors]
    exact List.filter_congr fun e he =>
      heq e.1 (hindexed.featured ▸ List.mem_map_of_mem (f := (·.1)) he)

/-- The numbers of the kept clauses. -/
theorem map_fst_filter {β : Type} (keep : ClauseId → Bool) (entries : List (ClauseId × β)) :
    (entries.filter fun e => keep e.1).map (·.1) = (entries.map (·.1)).filter keep := by
  rw [List.filter_map]
  rfl

theorem ReducedTo.ids {keep : ClauseId → Bool} {active later : ActiveSet}
    (h : ReducedTo keep active later) : later.ids = active.ids.filter keep := by
  rw [ActiveSet.ids, h.clauses, map_fst_filter]
  rfl

/-- A set whose term indices hold what is remembered for the kept clauses satisfies the invariant. -/
theorem Indexed.reducedTo {active later : ActiveSet} (hindexed : active.Indexed)
    {keep : ClauseId → Bool} (hclauses : later.clauses = active.clauses.filter fun e => keep e.1)
    (hvectors : later.subsumption.vectors = active.subsumption.vectors.filter fun e => keep e.1)
    (htrees : later.TreesHold fun index => placedAt index later.recorded)
    (hfeatures : later.subsumption.Sound) : ReducedTo keep active later := by
  have hids : later.ids = active.ids.filter keep := by
    rw [ActiveSet.ids, hclauses, map_fst_filter]
    rfl
  refine ⟨⟨?_, htrees, hfeatures, ?_⟩, hclauses, hvectors⟩
  · rw [hids]
    exact hindexed.nodup.filter keep
  · rw [hvectors, map_fst_filter, hindexed.featured, hids]

/-- A clause of the set can be taken out. -/
theorem Indexed.exists_removeClause {active : ActiveSet} (hindexed : active.Indexed) {id : ClauseId}
    {placements : List Placement} (hmem : (id, placements) ∈ active.clauses) :
    ∃ later, active.removeClause id placements = .ok later ∧
      ReducedTo (fun other => other ≠ id) active later := by
  have hsplit := perm_cons_filter_ne hindexed.nodup hmem
  set rest := active.clauses.filter fun e => e.1 ≠ id with hrest
  set without : ActiveSet := { active with clauses := rest } with hwithout
  -- without the clause on the list, the indices hold its placements beside the remembered ones
  have hhold : without.TreesHold fun index =>
      placedAt index placements ++ placedAt index without.recorded := by
    refine TreesHold.perm (show TreesHold _ _ from fun index => hindexed.trees index) ?_
    intro index
    rw [← placedAt_append]
    exact placedAt_perm index (hsplit.flatMap_right _)
  obtain ⟨displaced, hdisplaced, hsame, htrees⟩ := hhold.exists_displaceAll id placements
  have hclauses : displaced.clauses = rest := hsame.clauses
  have hfeatures : displaced.subsumption = active.subsumption := hsame.subsumption
  refine ⟨{ displaced with
      subsumption := (displaced.subsumption.erase id).1
      removed := displaced.removed + 1 }, ?_, hindexed.reducedTo hclauses ?_ ?_ ?_⟩
  · rw [removeClause]
    simp only [bind, Except.bind, ← hrest, ← hwithout, hdisplaced]
  · rw [hfeatures]
    exact FeatureIndex.vectors_erase _ id
  · have hrecorded : displaced.recorded = without.recorded := by
      rw [recorded, hclauses, recorded]
    intro index
    show _ ∧ (displaced.tree index).contents.Perm (placedAt index displaced.recorded)
    rw [hrecorded]
    exact htrees index
  · rw [hfeatures]
    exact hindexed.features.erase id

/-- Taking clauses out always succeeds: those that are in the set are gone, and nothing else
changes. -/
theorem Indexed.exists_remove {active : ActiveSet} (hindexed : active.Indexed)
    (requested : List ClauseId) :
    ∃ later removed, active.remove requested = .ok (later, removed) ∧
      ReducedTo (fun id => id ∉ requested) active later := by
  induction requested generalizing active with
  | nil =>
    refine ⟨active, [], rfl, hindexed, ?_, ?_⟩
    · exact (List.filter_eq_self.2 fun _ _ => by simp).symm
    · exact (List.filter_eq_self.2 fun _ _ => by simp).symm
  | cons id requested ih =>
    rw [ActiveSet.remove]
    cases hlookup : active.clauses.lookup id with
    | none =>
      -- a clause that is not in the set is passed over
      obtain ⟨later, removed, hlater, hreduced⟩ := ih hindexed
      refine ⟨later, removed, hlater, hreduced.congr hindexed ?_⟩
      intro other hother
      have hne : other ≠ id := by
        rintro rfl
        obtain ⟨e, he, heq⟩ := List.mem_map.1 hother
        exact absurd heq.symm (by simpa using List.lookup_eq_none_iff.1 hlookup e he)
      simp [hne]
    | some placements =>
      have hmem : (id, placements) ∈ active.clauses := mem_of_lookup_eq_some hlookup
      obtain ⟨without, hwithout, hreduced⟩ := hindexed.exists_removeClause hmem
      obtain ⟨later, removed, hlater, hreduced'⟩ := ih hreduced.indexed
      refine ⟨later, id :: removed, ?_, (hreduced.trans hreduced').congr hindexed ?_⟩
      · simp only [bind, Except.bind, hwithout, hlater]
      · intro other _
        by_cases hother : other = id <;> simp [hother]

/-- Taking clauses out keeps the invariant. -/
theorem Indexed.remove {active later : ActiveSet} (hindexed : active.Indexed)
    {requested removed : List ClauseId} (h : active.remove requested = .ok (later, removed)) :
    ReducedTo (fun id => id ∉ requested) active later := by
  obtain ⟨later', removed', hlater, hreduced⟩ := hindexed.exists_remove requested
  rw [h] at hlater
  cases hlater
  exact hreduced

/-! ## Snapshots -/

/-- The clauses by number are a function of the set of clauses. -/
theorem mergeSort_ids_eq {ids ids' : List ClauseId} (h : ids.Perm ids') :
    ids.mergeSort = ids'.mergeSort :=
  mergeSort_eq_of_perm (fun id => id) (fun _ _ _ _ heq => heq) h

/-- Sets that satisfy the invariant and remember the same have the same snapshot. -/
theorem Indexed.snapshot_eq {active active' : ActiveSet} (h : active.Indexed) (h' : active'.Indexed)
    (hperm : active.clauses.Perm active'.clauses) : active.snapshot = active'.snapshot := by
  have hids : active.ids.mergeSort = active'.ids.mergeSort := mergeSort_ids_eq (hperm.map _)
  have htrees : ∀ index, (active.tree index).entries TermEntry.le =
      (active'.tree index).entries TermEntry.le := by
    intro index
    refine (h.trees index).1.entries_eq TermEntry.le_trans' TermEntry.le_total'
      TermEntry.le_antisymm' (h'.trees index).1 ?_
    refine (h.trees index).2.trans (List.Perm.trans ?_ (h'.trees index).2.symm)
    exact placedAt_perm index (hperm.flatMap_right _)
  have hfeatures : active.subsumption.entries.map (·.1) = active'.subsumption.entries.map (·.1) := by
    rw [FeatureIndex.map_fst_entries, FeatureIndex.map_fst_entries, h.featured, h'.featured, hids]
  have htargets : active.targets.entries TermEntry.le = _ := htrees .targets
  have hrewriters : active.rewriters.entries TermEntry.le = _ := htrees .rewriters
  have hsubterms : active.subterms.entries TermEntry.le = _ := htrees .subterms
  rw [snapshot, hids, htargets, hrewriters, hsubterms, hfeatures]
  rfl

end ActiveSet

end GivenClause
