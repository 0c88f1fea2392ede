import Mathlib.Order.Bounds.Basic
import GivenClause.Proofs.Clause.DerivationLinks

/-! # Goal distance

A new clause gets its goal distance from its parents: zero for a goal, else one more than the nearest
parent has. The number is never computed again, neither when the store grows nor when the clause is found,
instantiated or made again. Still it is the length of a shortest derivation path to a goal, since parents
are older than the clause and keep their distances. For the same reason no path is longer than the number
of the clause that it starts from.

* `ClauseStore.GoalPath` are derivation paths to a goal;
* `ClauseStore.Measured` is the invariant, local to each clause and its parents, and
  `ClauseStore.CreateOutcome.measured` the step;
* `ClauseStore.Measured.distance_eq_some_iff` and `ClauseStore.Measured.le_of_goalPath` say what follows for
  whole paths, `ClauseStore.distance_performAll` that it holds in every run. -/

namespace GivenClause

namespace ClauseStore

/-! ## Paths -/

/-- Following `n` links to parents leads from a clause to a goal. -/
inductive GoalPath (store : ClauseStore) : ClauseId → Nat → Prop where
  /-- A goal is at distance zero from itself. -/
  | goal {id : ClauseId} {clause : Clause} (found : store.get? id = some clause)
    (role : clause.provenance.role = .negatedConjecture) : GoalPath store id 0
  /-- A path from a parent is one link shorter. -/
  | link {id parent : ClauseId} {clause : Clause} {n : Nat} (found : store.get? id = some clause)
    (mem : parent ∈ clause.parents) (path : GoalPath store parent n) : GoalPath store id (n + 1)

/-- Only goals are at the end of a path without links. -/
theorem goalPath_zero_iff {store : ClauseStore} {id : ClauseId} {clause : Clause}
    (hget : store.get? id = some clause) :
    store.GoalPath id 0 ↔ clause.provenance.role = .negatedConjecture := by
  refine ⟨fun h => ?_, fun hrole => .goal hget hrole⟩
  cases h with
  | goal found role =>
    rw [hget, Option.some.injEq] at found
    rwa [found]

/-! ## Distances of new clauses -/

variable {store later : ClauseStore} {parents : List ClauseId} {known : List (Option Nat)}

/-- Distances are looked up one by one. -/
theorem distances_eq_ok_iff :
    store.distances parents = .ok known ↔ List.Forall₂
      (fun id distance => ∃ clause, store.get? id = some clause ∧ clause.distance = distance)
      parents known := by
  induction parents generalizing known with
  | nil => cases known <;> simp [distances]
  | cons id ids ih =>
    rw [distances, Fault.bind_eq_ok]
    simp only [Fault.bind_eq_ok, get_eq_ok_iff, ih]
    constructor
    · rintro ⟨clause, hget, rest, hrest, hknown⟩
      cases hknown
      exact .cons ⟨clause, hget, rfl⟩ hrest
    · rintro (_ | ⟨⟨clause, hget, rfl⟩, hrest⟩)
      exact ⟨clause, hget, _, hrest, rfl⟩

/-- The distances of clauses stay as they are in a later state of the store. -/
theorem Extends.distances_eq (h : store.Extends later) (hknown : store.distances parents = .ok known) :
    later.distances parents = .ok known := by
  rw [distances_eq_ok_iff] at hknown ⊢
  refine hknown.imp fun id distance => ?_
  rintro ⟨clause, hget, rfl⟩
  obtain ⟨clause', hget', hcontinues⟩ := h.continues id clause hget
  exact ⟨clause', hget', by rw [hcontinues.same]⟩

/-- What a new clause gets: zero for a goal, else one more than the least known distance of a parent. -/
theorem distanceFor_eq_ok_iff {role : ClauseRole} {distance : Option Nat} :
    store.distanceFor role parents = .ok distance ↔
      role = .negatedConjecture ∧ distance = some 0 ∨
      role ≠ .negatedConjecture ∧ ∃ known, store.distances parents = .ok known ∧
        distance = (known.filterMap fun d => d).min?.map (· + 1) := by
  rw [distanceFor]
  by_cases hrole : role = .negatedConjecture
  · simp [hrole, eq_comm]
  · rw [if_neg hrole, Fault.bind_eq_ok]
    simp [hrole, eq_comm]

/-- The distance that a clause would get stays as it is in a later state of the store. -/
theorem Extends.distanceFor_eq (h : store.Extends later) {role : ClauseRole} {distance : Option Nat}
    (hdistance : store.distanceFor role parents = .ok distance) :
    later.distanceFor role parents = .ok distance := by
  rw [distanceFor_eq_ok_iff] at hdistance ⊢
  obtain hgoal | ⟨hrole, known, hknown, hleast⟩ := hdistance
  · exact Or.inl hgoal
  · exact Or.inr ⟨hrole, known, h.distances_eq hknown, hleast⟩

/-- A distance is among the known ones when a parent has it. -/
theorem mem_distances_iff (hknown : store.distances parents = .ok known) {distance : Option Nat} :
    distance ∈ known ↔
      ∃ parent ∈ parents, ∃ clause, store.get? parent = some clause ∧ clause.distance = distance := by
  rw [distances_eq_ok_iff] at hknown
  induction hknown with
  | nil => simp
  | cons hfirst _ ih =>
    obtain ⟨clause, hget, rfl⟩ := hfirst
    simp [ih, hget, eq_comm]

/-- Distances are known of clauses that exist. -/
theorem exists_get?_of_distances (hknown : store.distances parents = .ok known) {parent : ClauseId}
    (hparent : parent ∈ parents) : ∃ clause, store.get? parent = some clause := by
  rw [distances_eq_ok_iff] at hknown
  induction hknown with
  | nil => cases hparent
  | cons hfirst _ ih =>
    rcases List.mem_cons.1 hparent with rfl | hrest
    · obtain ⟨clause, hget, -⟩ := hfirst
      exact ⟨clause, hget⟩
    · exact ih hrest

/-- The nearest distance is that of a parent. -/
theorem exists_nearest_parent (hknown : store.distances parents = .ok known) {m : Nat}
    (hm : (known.filterMap fun d => d).min? = some m) :
    ∃ parent ∈ parents, ∃ clause, store.get? parent = some clause ∧ clause.distance = some m := by
  have hmem := (List.min?_eq_some_iff.1 hm).1
  rw [List.mem_filterMap] at hmem
  obtain ⟨_, hdistance, rfl⟩ := hmem
  exact (mem_distances_iff hknown).1 hdistance

/-- Where a parent has a distance there is a nearest one. -/
theorem exists_nearest_le (hknown : store.distances parents = .ok known) {parent : ClauseId}
    (hparent : parent ∈ parents) {clause : Clause} (hget : store.get? parent = some clause) {n : Nat}
    (hn : clause.distance = some n) : ∃ m ≤ n, (known.filterMap fun d => d).min? = some m := by
  have hmem : n ∈ known.filterMap fun d => d :=
    List.mem_filterMap.2 ⟨some n, (mem_distances_iff hknown).2 ⟨parent, hparent, clause, hget, hn⟩, rfl⟩
  cases hmin : (known.filterMap fun d => d).min? with
  | none =>
    rw [List.min?_eq_none_iff.1 hmin] at hmem
    cases hmem
  | some m => exact ⟨m, (List.min?_eq_some_iff.1 hmin).2 n hmem, rfl⟩

/-! ## Measured stores -/

/-- Every clause is younger than its parents and has the distance that a clause with its role and parents
would get now. -/
structure Measured (store : ClauseStore) : Prop where
  /-- Parents are older. -/
  older : ∀ id clause, store.get? id = some clause → ∀ parent ∈ clause.parents, parent < id
  /-- The distance is that of a new clause. -/
  distance : ∀ id clause, store.get? id = some clause →
    store.distanceFor clause.provenance.role clause.parents = .ok clause.distance

namespace Measured

/-- Only descendants may be added to the clauses of a measured store. -/
theorem of_continue (h : store.Measured) (later : ClauseStore)
    (hcontinue : ClausesContinue store.clauses later.clauses) : later.Measured := by
  have hextends : store.Extends later := .ofClauses hcontinue
  refine ⟨?_, ?_⟩
  · intro id clause' hget' parent hparent
    obtain ⟨clause, hget, hcontinues⟩ := hcontinue.of_getElem? hget'
    rw [hcontinues.same] at hparent
    exact h.older id clause hget parent hparent
  · intro id clause' hget'
    obtain ⟨clause, hget, hcontinues⟩ := hcontinue.of_getElem? hget'
    rw [hcontinues.same]
    exact hextends.distanceFor_eq (h.distance id clause hget)

/-- A clause at the end has to be measured itself. -/
theorem of_push (h : store.Measured) {clause : Clause}
    (hclauses : later.clauses = store.clauses.push clause)
    (holder : ∀ parent ∈ clause.parents, parent < store.size)
    (hdistance : store.distanceFor clause.provenance.role clause.parents = .ok clause.distance) :
    later.Measured := by
  have hextends : store.Extends later := .ofPush (.refl _) hclauses
  have hget : ∀ {id found}, later.get? id = some found →
      id = store.size ∧ found = clause ∨ store.get? id = some found := by
    intro id found hfound
    rw [get?, hclauses, Array.getElem?_push] at hfound
    split at hfound
    · next hid =>
      cases hfound
      exact Or.inl ⟨hid, rfl⟩
    · exact Or.inr hfound
  refine ⟨?_, ?_⟩
  · intro id found hfound
    obtain ⟨rfl, rfl⟩ | hold := hget hfound
    · exact holder
    · exact h.older id found hold
  · intro id found hfound
    obtain ⟨-, rfl⟩ | hold := hget hfound
    · exact hextends.distanceFor_eq hdistance
    · exact hextends.distanceFor_eq (h.distance id found hold)

end Measured

/-- Every creation keeps a store measured, also one that stops with a fault. -/
theorem CreateOutcome.measured {input : ClauseInput} {result : Except Fault ClauseId}
    (houtcome : CreateOutcome store input later result) (h : store.Measured) : later.Measured := by
  have hlinked := linkParents_continue store.size input.parents store.clauses
  cases houtcome with
  | oversized => exact h.of_continue _ (.refl _)
  | shared => exact h.of_continue _ (.refl _)
  | mismatched => exact h
  | refused => exact h
  | unlinked _ _ links =>
    rw [links] at hlinked
    exact h.of_continue _ hlinked
  | @made _ _ _ selected distance clauses _ nearest links =>
    -- first the parents gain a descendant, then the clause comes to the end
    rw [links] at hlinked
    have hbetween : ({ store with clauses } : ClauseStore).Measured := h.of_continue _ hlinked
    have hextends : store.Extends { store with clauses } := .ofClauses hlinked
    refine hbetween.of_push rfl ?_ (hextends.distanceFor_eq nearest)
    intro parent hparent
    exact Nat.lt_of_lt_of_le ((getElem?_linkParents links).1 parent hparent) hextends.size_le

namespace Measured

theorem perform (h : store.Measured) (call : StoreCall) : (store.perform call).1.Measured :=
  perform_induction (motive := Measured) store call
    (fun later input hlater => (later.create_outcome input).measured hlater)
    (fun later id extra hlater => hlater.of_continue _ (later.extendDescendants_continue id extra))
    (fun _ _ _ _ => h.of_continue _ (.refl _)) (fun _ _ _ _ => h.of_continue _ (.refl _)) h

theorem performAll (h : store.Measured) (calls : List StoreCall) : (store.performAll calls).Measured :=
  performAll_induction (motive := Measured) (fun _ call hstore => hstore.perform call) store calls h

end Measured

theorem measured_new (ordering : TermOrder) (selector : Selector) : (new ordering selector).Measured :=
  ((bare ordering selector).create_outcome _).measured
    ⟨by simp [bare, get?], by simp [bare, get?]⟩

/-! ## Shortest paths -/

namespace Measured

variable {id : ClauseId} {clause : Clause}

/-- A stored distance is the length of some path. By induction on the number of the clause: parents are
older. -/
theorem goalPath_of_distance (h : store.Measured) (hget : store.get? id = some clause) {n : Nat}
    (hn : clause.distance = some n) : store.GoalPath id n := by
  induction id using Nat.strongRecOn generalizing clause n with
  | ind id ih =>
    obtain ⟨hrole, hzero⟩ | ⟨-, known, hknown, hleast⟩ :=
      distanceFor_eq_ok_iff.1 (h.distance id clause hget)
    · rw [hn, Option.some.injEq] at hzero
      rw [hzero]
      exact .goal hget hrole
    · rw [hn, eq_comm] at hleast
      obtain ⟨m, hm, rfl⟩ := Option.map_eq_some_iff.1 hleast
      obtain ⟨parent, hparent, origin, horigin, hdist⟩ := exists_nearest_parent hknown hm
      exact .link hget hparent (ih parent (h.older id clause hget parent hparent) horigin hdist)

/-- No path is shorter than the stored distance, and where there is a path there is a distance. By
induction on the path. -/
theorem exists_distance_le (h : store.Measured) {n : Nat} (hpath : store.GoalPath id n)
    (hget : store.get? id = some clause) : ∃ m ≤ n, clause.distance = some m := by
  induction hpath generalizing clause with
  | goal found hrole =>
    cases hget.symm.trans found
    obtain ⟨-, hzero⟩ | ⟨hother, -⟩ := distanceFor_eq_ok_iff.1 (h.distance _ _ hget)
    · exact ⟨0, Nat.le_refl 0, hzero⟩
    · exact absurd hrole hother
  | link found hparent _ ih =>
    cases hget.symm.trans found
    obtain ⟨-, hzero⟩ | ⟨-, known, hknown, hleast⟩ := distanceFor_eq_ok_iff.1 (h.distance _ _ hget)
    · exact ⟨0, Nat.zero_le _, hzero⟩
    · -- the parent was found when the distances were looked up
      obtain ⟨origin, horigin⟩ := exists_get?_of_distances hknown hparent
      obtain ⟨m, hmn, hm⟩ := ih horigin
      obtain ⟨least, hle, hmin⟩ := exists_nearest_le hknown hparent horigin hm
      refine ⟨least + 1, Nat.succ_le_succ (Nat.le_trans hle hmn), ?_⟩
      rw [hleast, hmin, Option.map_some]

/-- A stored distance is the length of a shortest path. -/
theorem distance_eq_some_iff (h : store.Measured) (hget : store.get? id = some clause) {n : Nat} :
    clause.distance = some n ↔ IsLeast {m | store.GoalPath id m} n := by
  constructor
  · intro hn
    refine ⟨h.goalPath_of_distance hget hn, fun m hpath => ?_⟩
    obtain ⟨k, hkm, hk⟩ := h.exists_distance_le hpath hget
    rw [hn, Option.some.injEq] at hk
    exact hk ▸ hkm
  · rintro ⟨hpath, hleast⟩
    obtain ⟨k, hkn, hk⟩ := h.exists_distance_le hpath hget
    have hnk : n ≤ k := hleast (h.goalPath_of_distance hget hk)
    rw [hk, Nat.le_antisymm hkn hnk]

/-- There is no stored distance where there is no path. -/
theorem distance_eq_none_iff (h : store.Measured) (hget : store.get? id = some clause) :
    clause.distance = none ↔ ∀ n, ¬ store.GoalPath id n := by
  rw [Option.eq_none_iff_forall_ne_some]
  constructor
  · intro hnone n hpath
    obtain ⟨k, -, hk⟩ := h.exists_distance_le hpath hget
    exact hnone k hk
  · intro hnone n hn
    exact hnone n (h.goalPath_of_distance hget hn)

/-- Every link of a path leads to an older clause, so that a path is no longer than the number of the
clause that it starts from. -/
theorem le_of_goalPath (h : store.Measured) {n : Nat} (hpath : store.GoalPath id n) : n ≤ id := by
  induction hpath with
  | goal => exact Nat.zero_le _
  | link found hparent _ ih => exact Nat.lt_of_le_of_lt ih (h.older _ _ found _ hparent)

/-- One more than the nearest parent is at most the number of the clause to be made. -/
theorem nearest_lt_size (h : store.Measured) (hknown : store.distances parents = .ok known) {m : Nat}
    (hm : (known.filterMap fun d => d).min? = some m) : m + 1 ≤ store.size := by
  obtain ⟨parent, -, origin, horigin, hdist⟩ := exists_nearest_parent hknown hm
  obtain ⟨hlt, -⟩ := Array.getElem?_eq_some_iff.1 horigin
  exact Nat.lt_of_le_of_lt (h.le_of_goalPath (h.goalPath_of_distance horigin hdist)) hlt

end Measured

/-- **Goal distances are shortest derivation paths.** After any calls, the distance of a clause is the least
number of links to parents that lead from it to a goal, zero just for the goals themselves, and there is
none just where no such path exists. A distance is at most the number of its clause, a word of 32 bits. When
the distance of a new clause is computed, the clause has got its number already, and the sum is at most
that. -/
theorem distance_performAll (ordering : TermOrder) (selector : Selector) (calls : List StoreCall) :
    let store := (new ordering selector).performAll calls
    (∀ id clause, store.get? id = some clause →
      (∀ n, clause.distance = some n ↔ IsLeast {m | store.GoalPath id m} n) ∧
      (clause.distance = some 0 ↔ clause.provenance.role = .negatedConjecture) ∧
      (clause.distance = none ↔ ∀ n, ¬ store.GoalPath id n)) ∧
    (∀ id clause n, store.get? id = some clause → clause.distance = some n → n ≤ id ∧ id < 2 ^ 32) ∧
    ∀ parents known, store.distances parents = .ok known →
      ∀ m, (known.filterMap fun d => d).min? = some m →
        m + 1 ≤ store.size ∧ (store.nextId = .error .idsExhausted ∨ m + 1 < 2 ^ 32) := by
  intro store
  have h : store.Measured := (measured_new ordering selector).performAll calls
  have hbounded : store.size ≤ 2 ^ 32 :=
    (wellFormed_performAll (wellFormed_new ordering selector) calls).bounded
  refine ⟨?_, ?_, ?_⟩
  · intro id clause hget
    refine ⟨fun n => h.distance_eq_some_iff hget, ?_, h.distance_eq_none_iff hget⟩
    rw [h.distance_eq_some_iff hget, ← goalPath_zero_iff hget]
    exact ⟨fun hleast => hleast.1, fun hpath => ⟨hpath, fun _ _ => Nat.zero_le _⟩⟩
  · intro id clause n hget hn
    obtain ⟨hlt, -⟩ := Array.getElem?_eq_some_iff.1 hget
    exact ⟨h.le_of_goalPath (h.goalPath_of_distance hget hn), Nat.lt_of_lt_of_le hlt hbounded⟩
  · intro parents known hknown m hm
    have hsum := h.nearest_lt_size hknown hm
    refine ⟨hsum, ?_⟩
    cases hid : store.nextId with
    | error fault => exact Or.inl (congrArg Except.error (nextId_eq_error_iff.1 hid).2)
    | ok id => exact Or.inr (Nat.lt_of_le_of_lt hsum (nextId_eq_ok_iff.1 hid).1)

end ClauseStore

end GivenClause
