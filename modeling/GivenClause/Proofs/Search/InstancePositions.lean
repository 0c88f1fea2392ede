import GivenClause.Proofs.Clause.EligibleLiterals
import GivenClause.Proofs.Search.ActiveRuns

/-! # Positions that are eligible on instances

The indices of the active set are built from clauses as they stand, while inferences use clauses under
a substitution. No position is missed by that: a literal that is eligible on an instance is eligible on
the clause, and a side that takes part on the instance takes part on the clause, so the indices have all
positions of that side.

* `Literal.indexedSides_yields`: the sides that take part are those with no greater side;
* `Clause.mem_placements_of_eligible`: what is stored for an eligible literal;
* `ActiveState.mem_snapshot_of_eligible_on_instance`: nothing that is eligible on an instance is missed. -/

namespace GivenClause

/-! ## Sides -/

/-- A side of a literal takes part in ordered inferences: no side is greater. -/
def Literal.SideMaximal (kbo : Kbo) (lit : Literal) (side : Side × Term) : Prop :=
  side ∈ lit.sides ∧ ∀ other ∈ lit.sides, ¬ kbo.Greater other.2 side.2

theorem Literal.mem_sides {lit : Literal} {side : Side} {t : Term} :
    (side, t) ∈ lit.sides ↔ lit.side? side = some t := by
  cases lit <;> cases side <;> simp [sides, side?, eq_comm]

/-- A side of an equation takes part unless the other one is greater. -/
theorem Literal.sideMaximal_equation {kbo : Kbo} {lhs rhs : Term} {positive : Bool}
    {side : Side × Term} :
    (Literal.equation lhs rhs positive).SideMaximal kbo side ↔
      side = (.left, lhs) ∧ ¬ kbo.Greater rhs lhs ∨ side = (.right, rhs) ∧ ¬ kbo.Greater lhs rhs := by
  have hirrefl : ∀ t, ¬ kbo.Greater t t := fun t h => h.ne rfl
  rw [SideMaximal, sides]
  constructor
  · rintro ⟨hmem, hmaximal⟩
    rcases List.mem_pair.1 hmem with rfl | rfl
    · exact Or.inl ⟨rfl, hmaximal (.right, rhs) (by simp)⟩
    · exact Or.inr ⟨rfl, hmaximal (.left, lhs) (by simp)⟩
  · rintro (⟨rfl, h⟩ | ⟨rfl, h⟩)
    · exact ⟨by simp, by simp [h, hirrefl]⟩
    · exact ⟨by simp, by simp [h, hirrefl]⟩

/-- The computed sides are those that take part. -/
theorem Literal.indexedSides_yields (kbo : Kbo) (lit : Literal) :
    Yields (kbo.LiteralFits lit) (lit.indexedSides kbo)
      fun sides => ∀ side, side ∈ sides ↔ lit.SideMaximal kbo side := by
  have hirrefl : ∀ t, ¬ kbo.Greater t t := fun t h => h.ne rfl
  cases lit with
  | equation lhs rhs positive =>
    rw [indexedSides]
    refine ((kbo.compare_yields lhs rhs).mono
      (fun h => ⟨h lhs (by simp [terms, sides]), h rhs (by simp [terms, sides])⟩)
      fun _ => id).bind fun c hc => ?_
    cases hc with
    | eq heq =>
      subst heq
      exact .ok fun side => by simp [sideMaximal_equation, hirrefl]
    | gt hgreater =>
      exact .ok fun side => by simp [sideMaximal_equation, hgreater, hgreater.asymm]
    | lt hless =>
      exact .ok fun side => by simp [sideMaximal_equation, hless, hless.asymm]
    | incomparable _ hgreater hless =>
      exact .ok fun side => by simp [sideMaximal_equation, hgreater, hless]
  | prop atom positive =>
    refine .ok fun side => (and_iff_left_of_imp fun hmem => ?_).symm
    rw [sides, List.mem_singleton] at hmem
    simp [hmem, sides, hirrefl]
  | verum => exact .ok fun side => by simp [SideMaximal, sides]
  | falsum => exact .ok fun side => by simp [SideMaximal, sides]

theorem Literal.sides_mapTerms (f : Term → Term) (lit : Literal) :
    (lit.mapTerms f).sides = lit.sides.map fun side => (side.1, f side.2) := by
  cases lit <;> rfl

/-- A side that takes part on an instance comes from a side that takes part on the literal. -/
theorem Literal.SideMaximal.of_instance {kbo : Kbo} {lit : Literal} {θ : Nat → Term}
    {side : Side × Term} (h : (lit.mapTerms (TermOver.bind θ)).SideMaximal kbo side) :
    ∃ t, lit.SideMaximal kbo (side.1, t) := by
  obtain ⟨hmem, hmaximal⟩ := h
  rw [sides_mapTerms] at hmem hmaximal
  obtain ⟨⟨d, t⟩, ht, rfl⟩ := List.mem_map.1 hmem
  -- a greater side of the literal would have a greater instance
  refine ⟨t, ht, fun other hother hgreater => ?_⟩
  exact hmaximal _ (List.mem_map_of_mem hother) (hgreater.bind θ)

/-! ## What is stored for a clause -/

/-- The placements of every literal are among those of all. -/
theorem exists_indexedSides_of_placeLiterals {order : TermOrder} {id : ClauseId}
    {resolution paramodulation : LiteralSet} {literals : List (Literal × Nat)}
    {placements : List Placement}
    (h : placeLiterals order id resolution paramodulation literals = .ok placements)
    {e : Literal × Nat} (he : e ∈ literals) :
    ∃ sides, e.1.indexedSides order = .ok sides ∧
      ∀ p ∈ placeLiteral id e.2 e.1 sides (resolution.contains e.2) (paramodulation.contains e.2),
        p ∈ placements := by
  induction literals generalizing placements with
  | nil => cases he
  | cons d literals ih =>
    obtain ⟨lit, i⟩ := d
    obtain ⟨sides, hsides, hrest⟩ := Fault.bind_eq_ok.1 h
    obtain ⟨rest, hlater, hplacements⟩ := Fault.bind_eq_ok.1 hrest
    cases hplacements
    rcases List.mem_cons.1 he with rfl | he
    · exact ⟨sides, hsides, fun p hp => List.mem_append_left rest hp⟩
    · obtain ⟨sides', hsides', hmem⟩ := ih hlater he
      exact ⟨sides', hsides', fun p hp => List.mem_append_right _ (hmem p hp)⟩

namespace Clause

/-- The literals of a clause itself are its instance under nothing. -/
theorem instanceLiterals_empty (clause : Clause) (scope : Nat) :
    clause.instanceLiterals .empty scope = clause.literals :=
  rfl

/-- What is stored for an eligible literal: all positions of its sides that take part, and these sides as
a whole when the literal may rewrite. -/
theorem mem_placements_of_eligible {clause : Clause} {kbo : Kbo} {placements : List Placement}
    (h : clause.placements kbo = .ok placements) {i : Nat} {lit : Literal}
    (hlit : clause.literals[i]? = some lit) (heligible : clause.Eligible kbo clause.literals i)
    {side : Side × Term} (hside : lit.SideMaximal kbo side) :
    (∀ path u, side.2.at? path = some u → u.isVar = false →
      ⟨.targets, u, ⟨clause.id, i, side.1, path⟩⟩ ∈ placements) ∧
    (clause.selected.isEmpty = true → clause.positiveLiterals.contains i = true →
      ⟨.rewriters, side.2, ⟨clause.id, i, side.1, []⟩⟩ ∈ placements) := by
  obtain ⟨⟨resolution, paramodulation⟩, hindexed, hplaced⟩ := Fault.bind_eq_ok.1 h
  obtain ⟨set, hresolution, hindexed⟩ := Fault.bind_eq_ok.1 hindexed
  obtain ⟨set', hparamodulation, hindexed⟩ := Fault.bind_eq_ok.1 hindexed
  cases hindexed
  -- placements are computed from the literals that are eligible on the clause itself
  have hres := (clause.eligibleForResolution_yields kbo .empty 0).sound _ hresolution i
  have hpar := (clause.eligibleForParamodulation_yields kbo .empty 0).sound _ hparamodulation i
  rw [instanceLiterals_empty] at hres hpar
  have hmember : (lit, i) ∈ clause.literals.zipIdx := List.mem_zipIdx_iff_getElem?.2 hlit
  obtain ⟨sides, hsides, hmem⟩ := exists_indexedSides_of_placeLiterals hplaced hmember
  have hside := ((lit.indexedSides_yields kbo).sound sides hsides side).2 hside
  constructor
  · intro path u hat hvar
    refine hmem _ (List.mem_append_left _ (List.mem_append_left _ ?_))
    rw [if_pos (hres.2 heligible), List.mem_flatMap]
    refine ⟨side, hside, List.mem_map.2 ⟨(path, u), ?_, rfl⟩⟩
    exact List.mem_filter.2 ⟨TermOver.mem_subterms_of_at? hat, by simp [hvar]⟩
  · intro hselected hpositive
    refine hmem _ (List.mem_append_left _ (List.mem_append_right _ ?_))
    rw [if_pos (hpar.2 ⟨hselected, hpositive, heligible⟩)]
    exact List.mem_map_of_mem hside

end Clause

namespace ActiveState

/-- The indices hold what the store gives for an active clause, unless the clause is exempt. -/
theorem CoherentExcept.mem_entries {exempt : List (ClauseId × List Placement)} {state : ActiveState}
    (h : CoherentExcept exempt state) {id : ClauseId} (hid : id ∈ state.active.ids)
    (hexempt : id ∉ exempt.map (·.1)) :
    ∃ placements, ActiveSet.PlacedIn state.store (id, placements) ∧
      ∀ p ∈ placements,
        (p.term.storedKeys, p.entry) ∈ (state.active.tree p.index).entries TermEntry.le := by
  obtain ⟨e, he, rfl⟩ := List.mem_map.1 hid
  refine ⟨e.2, (h.placed e he).resolve_left fun hmem => hexempt (List.mem_map_of_mem hmem), ?_⟩
  intro p hp
  rw [(DiscriminationTree.entries_perm _ _).mem_iff, (h.indexed.trees p.index).2.mem_iff]
  refine List.mem_map.2 ⟨p, List.mem_filter.2 ⟨?_, decide_eq_true rfl⟩, rfl⟩
  exact List.mem_flatMap.2 ⟨e, he, hp⟩

/-- Along a run, clauses carry the numbers under which they are found. -/
theorem numbered_performAll {state later : ActiveState} {calls : List ActiveCall}
    (h : state.performAll calls = .ok later) (hstate : state.store.Numbered) :
    later.store.Numbered := by
  rw [store_performAll h]
  exact ClauseStore.performAll_induction (fun _ call hs => hs.perform call) _ _ hstate

/-- What the indices hold for a literal and a side that take part on an instance. -/
theorem CoherentExcept.mem_snapshot_of_instance {exempt : List (ClauseId × List Placement)}
    {state : ActiveState} (h : CoherentExcept exempt state) (hnumbered : state.store.Numbered)
    {kbo : Kbo} (hkbo : state.store.ordering = kbo) {id : ClauseId} (hid : id ∈ state.active.ids)
    (hexempt : id ∉ exempt.map (·.1)) {clause : Clause}
    (hclause : state.store.get? id = some clause) {θ : Nat → Term} {i : Nat} {instanceLit : Literal}
    (hlit : (clause.literals.map (Literal.mapTerms (TermOver.bind θ)))[i]? = some instanceLit)
    (heligible : clause.Eligible kbo
      (clause.literals.map (Literal.mapTerms (TermOver.bind θ))) i)
    {side : Side × Term} (hside : instanceLit.SideMaximal kbo side) :
    ∃ lit t, clause.literals[i]? = some lit ∧ lit.side? side.1 = some t ∧
      (∀ path (u : Term), t.at? path = some u → u.isVar = false →
        (u.storedKeys, ⟨id, i, side.1, path⟩) ∈ state.active.snapshot.targets) ∧
      (clause.selected.isEmpty = true → clause.positiveLiterals.contains i = true →
        (t.storedKeys, ⟨id, i, side.1, []⟩) ∈ state.active.snapshot.rewriters) := by
  rw [List.getElem?_map, Option.map_eq_some_iff] at hlit
  obtain ⟨lit, hlit, rfl⟩ := hlit
  obtain ⟨t, ht⟩ := hside.of_instance
  obtain ⟨placements, ⟨clause', hclause', hplaced⟩, hentries⟩ := h.mem_entries hid hexempt
  rw [hclause, Option.some.injEq] at hclause'
  subst hclause'
  rw [hkbo] at hplaced
  obtain ⟨htargets, hrewriters⟩ :=
    Clause.mem_placements_of_eligible hplaced hlit heligible.of_instance ht
  rw [hnumbered id clause hclause] at htargets hrewriters
  refine ⟨lit, t, hlit, Literal.mem_sides.1 ht.1, ?_, ?_⟩
  · exact fun path u hat hvar => hentries _ (htargets path u hat hvar)
  · exact fun hselected hpositive => hentries _ (hrewriters hselected hpositive)

/-- No position that is eligible on an instance is missed. In every run, under a Knuth–Bendix ordering, for
every active clause that was added after the last exchange of the ordering, whose applications store their
numbers of arguments, and for every substitution and scope:

* the eligible literals and their sides are determined when no weight of the instance overflows;
* for a literal that may be resolved upon, on the instance, and a side of it that takes part, on the
  instance, the index of rewritten subterms has all positions of that side of the clause that are no
  variables;
* for a literal that may rewrite, the index of rewriting sides has that side. -/
theorem mem_snapshot_of_eligible_on_instance (ordering : TermOrder) (selector : Selector)
    {before after : List ActiveCall} {earlier state : ActiveState}
    (hbefore : performAll ⟨.new ordering selector, .empty⟩ before = .ok earlier)
    (hafter : earlier.performAll after = .ok state)
    (hordering : ∀ call ∈ after, call.setsOrdering = false) {kbo : Kbo}
    (hkbo : state.store.ordering = kbo) {id : ClauseId}
    (hnew : id ∉ earlier.active.ids) (hactive : id ∈ state.active.ids) {clause : Clause}
    (hclause : state.store.get? id = some clause)
    (hwellFormed : ∀ lit ∈ clause.literals, lit.WellFormed) (σ : Substitution) (scope : Nat) :
    ((∀ lit ∈ clause.instanceLiterals σ scope, kbo.LiteralFits lit) →
      (∃ set, state.store.eligibleForResolution id σ scope = .ok set) ∧
      (∃ set, state.store.eligibleForParamodulation id σ scope = .ok set) ∧
      ∀ lit ∈ clause.instanceLiterals σ scope,
        ∃ sides, lit.indexedSides state.store.ordering = .ok sides) ∧
    (∀ set, state.store.eligibleForResolution id σ scope = .ok set →
      ∀ i instanceLit sides, set.contains i = true →
        (clause.instanceLiterals σ scope)[i]? = some instanceLit →
        instanceLit.indexedSides state.store.ordering = .ok sides → ∀ side ∈ sides,
        ∃ lit t, clause.literals[i]? = some lit ∧ lit.side? side.1 = some t ∧
          ∀ path (u : Term), t.at? path = some u → u.isVar = false →
            (u.storedKeys, ⟨id, i, side.1, path⟩) ∈ state.active.snapshot.targets) ∧
    (∀ set, state.store.eligibleForParamodulation id σ scope = .ok set →
      ∀ i instanceLit sides, set.contains i = true →
        (clause.instanceLiterals σ scope)[i]? = some instanceLit →
        instanceLit.indexedSides state.store.ordering = .ok sides → ∀ side ∈ sides,
        ∃ lit t, clause.literals[i]? = some lit ∧ lit.side? side.1 = some t ∧
          (t.storedKeys, ⟨id, i, side.1, []⟩) ∈ state.active.snapshot.rewriters) := by
  have hkept : Kept earlier := (kept_empty _).performAll hbefore
  have hnumbered : state.store.Numbered :=
    numbered_performAll hafter (numbered_performAll hbefore (ClauseStore.numbered_new _ _))
  -- clauses that were active before the ordering was last exchanged are exempt
  have hcoherent : CoherentExcept earlier.active.clauses state :=
    CoherentExcept.performAll ⟨hkept, fun e he => Or.inl he⟩ hordering hafter
  have hget : state.store.get id = .ok clause := by rw [ClauseStore.get, hclause]
  -- from here on the instance is a replacement of variables, under which the orderings are stable
  obtain ⟨θ, hθ⟩ := clause.exists_instanceLiterals_eq hwellFormed σ scope
  have hresolution := clause.eligibleForResolution_yields kbo σ scope
  have hparamodulation := clause.eligibleForParamodulation_yields kbo σ scope
  rw [← hkbo] at hresolution hparamodulation
  rw [hθ] at hresolution hparamodulation ⊢
  refine ⟨fun hfits => ⟨?_, ?_, ?_⟩, ?_, ?_⟩
  · obtain ⟨set, hset⟩ := hresolution.total hfits
    exact ⟨set, Fault.bind_eq_ok.2 ⟨clause, hget, hset⟩⟩
  · obtain ⟨set, hset⟩ := hparamodulation.total hfits
    exact ⟨set, Fault.bind_eq_ok.2 ⟨clause, hget, hset⟩⟩
  · rw [hkbo]
    exact fun lit hlit => (lit.indexedSides_yields kbo).total (hfits lit hlit)
  · intro set hset i instanceLit sides hi hlit hsides side hside
    rw [ClauseStore.eligibleForResolution, hget] at hset
    rw [hkbo] at hsides
    obtain ⟨lit, t, hlit, ht, htargets, -⟩ := hcoherent.mem_snapshot_of_instance hnumbered hkbo
      hactive hnew hclause hlit ((hresolution.sound set hset i).1 hi)
      (((instanceLit.indexedSides_yields _).sound sides hsides side).1 hside)
    exact ⟨lit, t, hlit, ht, htargets⟩
  · intro set hset i instanceLit sides hi hlit hsides side hside
    rw [ClauseStore.eligibleForParamodulation, hget] at hset
    rw [hkbo] at hsides
    obtain ⟨hselected, hpositive, heligible⟩ := (hparamodulation.sound set hset i).1 hi
    obtain ⟨lit, t, hlit, ht, -, hrewriters⟩ := hcoherent.mem_snapshot_of_instance hnumbered hkbo
      hactive hnew hclause hlit heligible
      (((instanceLit.indexedSides_yields _).sound sides hsides side).1 hside)
    exact ⟨lit, t, hlit, ht, hrewriters hselected hpositive⟩

/-- The clause `g(x) = f(y)`, which the ordering does not orient. -/
def unorientedRule : ClauseInput where
  literals := [.equation (.app ⟨1, 1⟩ [.var 0]) (.app ⟨0, 1⟩ [.var 1]) true]
  provenance := .input .axiomatic

/-- A new store to which the clause was added. -/
def unorientedStore : ClauseStore :=
  ((ClauseStore.new (.kbo {}) (.preset .none)).create unorientedRule).1

/-- Both variables are replaced by the constant `a`. -/
def bothReplaced : Substitution :=
  ⟨[(⟨0, 0⟩, .const 0), (⟨0, 1⟩, .const 0)]⟩

theorem unorientedStore_eq :
    unorientedStore = (((ClauseStore.bare (.kbo {}) (.preset .none)).createNew
      { literals := [.verum], provenance := (Provenance.input .axiomatic).persist }
      [.verum]).1.createNew unorientedRule unorientedRule.literals).1 := by
  rw [unorientedStore, ClauseStore.create_eq_createNew (by decide)
    (ClauseStore.getElem?_table_new (by decide)), ClauseStore.new_eq_createNew]
  rfl

/-- On the instance `g(a) = f(a)` the left side is greater; it is found in both indices, which hold the
clause as it stands. -/
theorem mem_snapshot_of_eligible_on_instance_unorientedRule :
    ∃ state, performAll ⟨.new (.kbo {}) (.preset .none), .empty⟩
        [.store (.create unorientedRule), .add [1]] = .ok state ∧
      ([.function 1 1, .star], ⟨1, 0, .left, []⟩) ∈ state.active.snapshot.targets ∧
      ([.function 1 1, .star], ⟨1, 0, .left, []⟩) ∈ state.active.snapshot.rewriters := by
  have hids : (ActiveSet.empty.add unorientedStore [1]).map (·.1.ids) = .ok [1] := by
    rw [unorientedStore_eq]
    decide +kernel
  obtain ⟨⟨active, added⟩, hadd, hids⟩ := Fault.bind_eq_ok.1 hids
  have hactive : 1 ∈ active.ids := by
    rw [show active.ids = [1] from Except.ok.inj hids]
    exact List.mem_cons_self
  have hrun : performAll ⟨.new (.kbo {}) (.preset .none), .empty⟩
      [.store (.create unorientedRule), .add [1]] = .ok ⟨unorientedStore, active⟩ := by
    refine Fault.bind_eq_ok.2 ⟨⟨unorientedStore, .empty⟩, rfl, ?_⟩
    exact Fault.bind_eq_ok.2 ⟨⟨unorientedStore, active⟩, Fault.bind_eq_ok.2 ⟨_, hadd, rfl⟩, rfl⟩
  obtain ⟨clause, hclause, hliterals⟩ : ∃ clause, unorientedStore.get? 1 = some clause ∧
      clause.literals = unorientedRule.literals := by
    rw [unorientedStore_eq]
    exact ⟨_, rfl, rfl⟩
  have hinstance : clause.instanceLiterals bothReplaced 0 =
      [.equation (.app ⟨1, 1⟩ [.const 0]) (.app ⟨0, 1⟩ [.const 0]) true] := by
    rw [Clause.instanceLiterals, hliterals]
    decide +kernel
  have hresolution : unorientedStore.eligibleForResolution 1 bothReplaced 0 = .ok ⟨1⟩ := by
    rw [unorientedStore_eq]
    decide +kernel
  have hparamodulation : unorientedStore.eligibleForParamodulation 1 bothReplaced 0 = .ok ⟨1⟩ := by
    rw [unorientedStore_eq]
    decide +kernel
  have hkbo : unorientedStore.ordering = .kbo {} := by
    rw [unorientedStore_eq]
    rfl
  have hsides : (Literal.equation (.app ⟨1, 1⟩ [.const 0]) (.app ⟨0, 1⟩ [.const 0]) true).indexedSides
      unorientedStore.ordering = .ok [(.left, .app ⟨1, 1⟩ [.const 0])] := by
    rw [unorientedStore_eq]
    decide +kernel
  obtain ⟨-, htargets, hrewriters⟩ := mem_snapshot_of_eligible_on_instance (.kbo {}) (.preset .none)
    (show performAll _ [] = .ok _ from rfl) hrun (by decide) hkbo List.not_mem_nil hactive hclause
    (by rw [hliterals]; decide) bothReplaced 0
  rw [hinstance] at htargets hrewriters
  refine ⟨_, hrun, ?_, ?_⟩
  · obtain ⟨lit, t, hlit, ht, hmem⟩ :=
      htargets ⟨1⟩ hresolution 0 _ _ rfl rfl hsides _ List.mem_cons_self
    rw [hliterals] at hlit
    cases hlit
    cases ht
    exact hmem [] _ rfl rfl
  · obtain ⟨lit, t, hlit, ht, hmem⟩ :=
      hrewriters ⟨1⟩ hparamodulation 0 _ _ rfl rfl hsides _ List.mem_cons_self
    rw [hliterals] at hlit
    cases hlit
    cases ht
    exact hmem

end ActiveState

end GivenClause
