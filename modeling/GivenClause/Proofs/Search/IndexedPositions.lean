import GivenClause.Proofs.Search.Activation
import GivenClause.Proofs.Search.InstancePositions
import GivenClause.Proofs.Term.Positions

/-! # Positions that index entries point at

An entry of a term index is a position: a clause, a literal of it, a side of the literal and a path below
that side. Positions are found by walking over the terms of a clause when it is added, are stored as data,
and are looked up in the store later. Whatever happened in between, looking one up gives a term with the
keys that it is stored under, and the index of all subterms has every position of an active clause once.

* `TermEntry.PointsTo` is the lookup below a clause;
* `Clause.pointsTo_of_mem_placements`, `Clause.mem_placements_of_pointsTo`, `Clause.nodup_slots_placements`:
  what is stored for a clause, and that nothing is stored twice;
* `ActiveState.Tracked` is the invariant, `ActiveState.entries_exact` for all runs. -/

namespace GivenClause

open InsertionOrder

/-! ## Looking up positions -/

namespace TermEntry

/-- The entry leads to `t` in a literal sequence, through one of the literals, one of its sides and a path
below that side. -/
def PointsTo (entry : TermEntry) (literals : List Literal) (t : Term) : Prop :=
  ∃ lit s, literals[entry.literal]? = some lit ∧ lit.side? entry.side = some s ∧
    s.at? entry.path = some t

/-- An entry is looked up in the clause that it names. -/
theorem term?_eq_some_iff {entry : TermEntry} {store : ClauseStore} {t : Term} :
    entry.term? store = some t ↔
      ∃ clause, store.get? entry.clause = some clause ∧ entry.PointsTo clause.literals t := by
  simp only [term?, PointsTo, bind, Option.bind_eq_some_iff, ← exists_and_left]

end TermEntry

/-! ## What is stored for a literal -/

/-- The sides that take part are sides of the literal, in order. -/
theorem Literal.indexedSides_sublist {order : TermOrder} {lit : Literal} {sides : List (Side × Term)}
    (h : lit.indexedSides order = .ok sides) : sides.Sublist lit.sides := by
  cases lit with
  | equation lhs rhs positive =>
    obtain ⟨c, -, hsides⟩ := Fault.bind_eq_ok.1 h
    cases c <;> cases hsides <;> simp [Literal.sides]
  | _ =>
    cases h
    exact .refl _

theorem Literal.nodup_map_fst_sides (lit : Literal) : (lit.sides.map Prod.fst).Nodup := by
  cases lit <;> simp [sides]

/-- What is stored for a literal points below it: into one of its sides, and not at a variable, except as a
whole side. -/
theorem pointsTo_of_mem_placeLiteral {id : ClauseId} {i : Nat} {lit : Literal}
    {indexed : List (Side × Term)} (h : indexed.Sublist lit.sides) {resolvable rewriting : Bool}
    {p : Placement} (hp : p ∈ placeLiteral id i lit indexed resolvable rewriting) :
    p.entry.literal = i ∧
      (∃ s, lit.side? p.entry.side = some s ∧ s.at? p.entry.path = some p.term) ∧
      (p.index ≠ .rewriters → p.term.isVar = false) := by
  have hwalk : ∀ {index : TermIndex} {sides : List (Side × Term)}, sides.Sublist lit.sides →
      p ∈ sides.flatMap (placeSubterms index id i) → p.entry.literal = i ∧
        (∃ s, lit.side? p.entry.side = some s ∧ s.at? p.entry.path = some p.term) ∧
        p.term.isVar = false := by
    intro index sides hsides hmem
    obtain ⟨side, hside, hmem⟩ := List.mem_flatMap.1 hmem
    obtain ⟨e, he, rfl⟩ := List.mem_map.1 hmem
    obtain ⟨he, hvar⟩ := List.mem_filter.1 he
    refine ⟨rfl, ⟨side.2, Literal.mem_sides.1 (hsides.subset hside), ?_⟩, by simpa using hvar⟩
    exact TermOver.mem_subterms_iff.1 he
  rw [placeLiteral, List.mem_append, List.mem_append, List.mem_ite_nil_right,
    List.mem_ite_nil_right] at hp
  rcases hp with (⟨-, hp⟩ | ⟨-, hp⟩) | hp
  · obtain ⟨hliteral, hpoints, hvar⟩ := hwalk h hp
    exact ⟨hliteral, hpoints, fun _ => hvar⟩
  · obtain ⟨side, hside, rfl⟩ := List.mem_map.1 hp
    exact ⟨rfl, ⟨side.2, Literal.mem_sides.1 (h.subset hside), side.2.at?_nil⟩, fun hne =>
      absurd rfl hne⟩
  · obtain ⟨hliteral, hpoints, hvar⟩ := hwalk (.refl _) hp
    exact ⟨hliteral, hpoints, fun _ => hvar⟩

/-- Every position of a literal that is no variable is stored in the index of all subterms. -/
theorem mem_placeLiteral_of_at? {id : ClauseId} {i : Nat} {lit : Literal}
    {indexed : List (Side × Term)} {resolvable rewriting : Bool} {side : Side} {s t : Term}
    {path : Path} (hside : lit.side? side = some s) (hat : s.at? path = some t)
    (hvar : t.isVar = false) :
    ⟨.subterms, t, ⟨id, i, side, path⟩⟩ ∈ placeLiteral id i lit indexed resolvable rewriting := by
  refine List.mem_append_right _ (List.mem_flatMap.2 ⟨(side, s), Literal.mem_sides.2 hside, ?_⟩)
  have hmem : (path, t) ∈ s.subterms.filter fun e => !e.2.isVar :=
    List.mem_filter.2 ⟨TermOver.mem_subterms_iff.2 hat, by simp [hvar]⟩
  exact List.mem_map.2 ⟨(path, t), hmem, rfl⟩

/-! ## Nothing is stored twice -/

/-- Where a placement goes: an index, and a position in it. -/
def Placement.slot (p : Placement) : TermIndex × TermEntry :=
  (p.index, p.entry)

theorem disjoint_slots {ps qs : List Placement} (h : ∀ p ∈ ps, ∀ q ∈ qs, p.slot ≠ q.slot) :
    (ps.map Placement.slot).Disjoint (qs.map Placement.slot) := by
  intro slot hleft hright
  obtain ⟨p, hp, rfl⟩ := List.mem_map.1 hleft
  obtain ⟨q, hq, heq⟩ := List.mem_map.1 hright
  exact h p hp q hq heq.symm

/-- The positions below different sides of a literal are different. -/
theorem nodup_slots_placeSubterms (index : TermIndex) (id : ClauseId) (i : Nat)
    {sides : List (Side × Term)} (h : (sides.map Prod.fst).Nodup) :
    ((sides.flatMap (placeSubterms index id i)).map Placement.slot).Nodup := by
  rw [List.map_flatMap, List.nodup_flatMap]
  constructor
  · intro side _
    have hpaths := side.2.nodup_map_fst_subterms.sublist
      ((List.filter_sublist (p := fun e => !e.2.isVar)).map Prod.fst)
    have hslots := hpaths.map (f := fun path => (index, (⟨id, i, side.1, path⟩ : TermEntry)))
      fun path path' heq => congrArg (fun slot => slot.2.path) heq
    rw [List.map_map] at hslots
    rwa [placeSubterms, List.map_map]
  · -- and those below different sides are told apart by the side
    refine (List.pairwise_map.1 h).imp fun hne => disjoint_slots fun p hp q hq heq => hne ?_
    obtain ⟨e, -, rfl⟩ := List.mem_map.1 hp
    obtain ⟨d, -, rfl⟩ := List.mem_map.1 hq
    exact congrArg (fun slot => slot.2.side) heq

theorem index_of_mem_placeSubterms {index : TermIndex} {id : ClauseId} {i : Nat}
    {sides : List (Side × Term)} {p : Placement} (hp : p ∈ sides.flatMap (placeSubterms index id i)) :
    p.index = index := by
  obtain ⟨side, -, hp⟩ := List.mem_flatMap.1 hp
  obtain ⟨e, -, rfl⟩ := List.mem_map.1 hp
  rfl

/-- Nothing is stored twice for a literal: each of the three indices gets different positions. -/
theorem nodup_slots_placeLiteral (id : ClauseId) (i : Nat) {lit : Literal}
    {indexed : List (Side × Term)} (h : indexed.Sublist lit.sides) (resolvable rewriting : Bool) :
    ((placeLiteral id i lit indexed resolvable rewriting).map Placement.slot).Nodup := by
  have hsides := lit.nodup_map_fst_sides
  have hindexed := hsides.sublist (h.map Prod.fst)
  have hrewriters : ((indexed.map (placeSide .rewriters id i)).map Placement.slot).Nodup := by
    have hslots := hindexed.map (f := fun side => (TermIndex.rewriters, (⟨id, i, side, []⟩ : TermEntry)))
      fun side side' heq => congrArg (fun slot => slot.2.side) heq
    rw [List.map_map] at hslots ⊢
    exact hslots
  have hindex : ∀ p ∈ indexed.map (placeSide .rewriters id i), p.index = .rewriters := by
    intro p hp
    obtain ⟨side, -, rfl⟩ := List.mem_map.1 hp
    rfl
  have hne : ∀ {p q : Placement}, p.index ≠ q.index → p.slot ≠ q.slot := fun hindex heq =>
    hindex (congrArg Prod.fst heq)
  rw [placeLiteral, List.map_append, List.map_append]
  refine List.Nodup.append (List.Nodup.append ?_ ?_ ?_)
    (nodup_slots_placeSubterms .subterms id i hsides) ?_
  · split
    · exact nodup_slots_placeSubterms .targets id i hindexed
    · exact List.nodup_nil
  · split
    · exact hrewriters
    · exact List.nodup_nil
  · refine disjoint_slots fun p hp q hq => hne ?_
    rw [List.mem_ite_nil_right] at hp hq
    rw [index_of_mem_placeSubterms hp.2, hindex q hq.2]
    decide
  · rw [← List.map_append]
    refine disjoint_slots fun p hp q hq => hne ?_
    rw [List.mem_append, List.mem_ite_nil_right, List.mem_ite_nil_right] at hp
    rw [index_of_mem_placeSubterms hq]
    rcases hp with ⟨-, hp⟩ | ⟨-, hp⟩
    · rw [index_of_mem_placeSubterms hp]
      decide
    · rw [hindex p hp]
      decide

/-! ## What is stored for a clause -/

/-- What is stored for literals is stored for one of them. -/
theorem exists_of_mem_placeLiterals {order : TermOrder} {id : ClauseId}
    {resolution paramodulation : LiteralSet} {literals : List (Literal × Nat)} {placements : List Placement}
    (h : placeLiterals order id resolution paramodulation literals = .ok placements) {p : Placement}
    (hp : p ∈ placements) :
    ∃ e ∈ literals, ∃ sides, e.1.indexedSides order = .ok sides ∧
      p ∈ placeLiteral id e.2 e.1 sides (resolution.contains e.2) (paramodulation.contains e.2) := by
  induction literals generalizing placements with
  | nil =>
    cases h
    cases hp
  | cons e literals ih =>
    obtain ⟨sides, hsides, hmore⟩ := Fault.bind_eq_ok.1 h
    obtain ⟨rest, hrest, hend⟩ := Fault.bind_eq_ok.1 hmore
    cases hend
    rcases List.mem_append.1 hp with hp | hp
    · exact ⟨e, List.mem_cons_self, sides, hsides, hp⟩
    · obtain ⟨d, hd, hstored⟩ := ih hrest hp
      exact ⟨d, List.mem_cons_of_mem e hd, hstored⟩

/-- Literals with different indices have nothing stored twice. -/
theorem nodup_slots_placeLiterals {order : TermOrder} {id : ClauseId} {resolution paramodulation : LiteralSet}
    {literals : List (Literal × Nat)} {placements : List Placement}
    (h : placeLiterals order id resolution paramodulation literals = .ok placements)
    (hindices : (literals.map Prod.snd).Nodup) : (placements.map Placement.slot).Nodup := by
  induction literals generalizing placements with
  | nil =>
    cases h
    exact List.nodup_nil
  | cons e literals ih =>
    obtain ⟨sides, hsides, hmore⟩ := Fault.bind_eq_ok.1 h
    obtain ⟨rest, hrest, hend⟩ := Fault.bind_eq_ok.1 hmore
    cases hend
    obtain ⟨hnew, hothers⟩ := List.nodup_cons.1 hindices
    rw [List.map_append]
    refine (nodup_slots_placeLiteral id e.2 (Literal.indexedSides_sublist hsides) _ _).append
      (ih hrest hothers) (disjoint_slots fun p hp q hq heq => hnew ?_)
    -- what is stored for another literal has the index of that literal
    obtain ⟨d, hd, sides', hsides', hq⟩ := exists_of_mem_placeLiterals hrest hq
    have hfirst := (pointsTo_of_mem_placeLiteral (Literal.indexedSides_sublist hsides) hp).1
    have hother := (pointsTo_of_mem_placeLiteral (Literal.indexedSides_sublist hsides') hq).1
    have hsame : p.entry.literal = q.entry.literal := congrArg (fun slot => slot.2.literal) heq
    rw [← hfirst, hsame, hother]
    exact List.mem_map_of_mem hd

namespace Clause

variable {clause : Clause} {order : TermOrder} {placements : List Placement}

/-- What is stored for a clause points at the term that it is stored under, which is no variable except
for whole sides. -/
theorem pointsTo_of_mem_placements (h : clause.placements order = .ok placements) {p : Placement}
    (hp : p ∈ placements) :
    p.entry.PointsTo clause.literals p.term ∧ (p.index ≠ .rewriters → p.term.isVar = false) := by
  obtain ⟨sets, -, hplace⟩ := Fault.bind_eq_ok.1 h
  obtain ⟨⟨lit, i⟩, he, sides, hsides, hp⟩ := exists_of_mem_placeLiterals hplace hp
  obtain ⟨hliteral, ⟨s, hside, hat⟩, hvar⟩ :=
    pointsTo_of_mem_placeLiteral (Literal.indexedSides_sublist hsides) hp
  refine ⟨⟨lit, s, ?_, hside, hat⟩, hvar⟩
  rw [hliteral]
  exact List.mem_zipIdx_iff_getElem?.1 he

/-- Every position of a clause that is no variable is stored in the index of all subterms. -/
theorem mem_placements_of_pointsTo (h : clause.placements order = .ok placements) {entry : TermEntry}
    (hclause : entry.clause = clause.id) {t : Term} (hpoints : entry.PointsTo clause.literals t)
    (hvar : t.isVar = false) : ⟨.subterms, t, entry⟩ ∈ placements := by
  obtain ⟨lit, s, hlit, hside, hat⟩ := hpoints
  obtain ⟨sets, -, hplace⟩ := Fault.bind_eq_ok.1 h
  have hmember : (lit, entry.literal) ∈ clause.literals.zipIdx := List.mem_zipIdx_iff_getElem?.2 hlit
  obtain ⟨sides, -, hmem⟩ := exists_indexedSides_of_placeLiterals hplace hmember
  have hstored := hmem _ (mem_placeLiteral_of_at? hside hat hvar)
  rwa [← hclause] at hstored

/-- Nothing is stored twice for a clause. -/
theorem nodup_slots_placements (h : clause.placements order = .ok placements) :
    (placements.map Placement.slot).Nodup := by
  obtain ⟨sets, -, hplace⟩ := Fault.bind_eq_ok.1 h
  refine nodup_slots_placeLiterals hplace ?_
  rw [List.zipIdx_map_snd]
  exact List.nodup_range'

end Clause

/-! ## Runs -/

namespace ActiveSet

variable {active : ActiveSet}

/-- What a term index lists is what is remembered for it. -/
theorem Indexed.mem_entries_iff (h : active.Indexed) {index : TermIndex} {keys : List FlatKey}
    {entry : TermEntry} :
    (keys, entry) ∈ (active.tree index).entries TermEntry.le ↔
      ∃ t : Term, ⟨index, t, entry⟩ ∈ active.recorded ∧ t.storedKeys = keys := by
  have hcontents : (active.tree index).contents.Perm (placedAt index active.recorded) := (h.trees index).2
  rw [(DiscriminationTree.entries_perm _ _).mem_iff, hcontents.mem_iff, placedAt, List.mem_map]
  constructor
  · rintro ⟨⟨_, t, _⟩, hp, heq⟩
    obtain ⟨hrecorded, hindex⟩ := List.mem_filter.1 hp
    cases heq
    cases of_decide_eq_true hindex
    exact ⟨t, hrecorded, rfl⟩
  · rintro ⟨t, hp, rfl⟩
    exact ⟨_, List.mem_filter.2 ⟨hp, decide_eq_true rfl⟩, rfl⟩

/-- No term index lists an entry twice when nothing is remembered twice. -/
theorem Indexed.nodup_entries (h : active.Indexed) (hslots : (active.recorded.map Placement.slot).Nodup)
    (index : TermIndex) : (((active.tree index).entries TermEntry.le).map (·.2)).Nodup := by
  have hlisted : ((active.tree index).entries TermEntry.le).Perm (placedAt index active.recorded) :=
    (DiscriminationTree.entries_perm _ _).trans (h.trees index).2
  rw [(hlisted.map (·.2)).nodup_iff, placedAt, List.map_map]
  refine (hslots.of_map.filter _).map_on fun p hp q hq heq => ?_
  -- within one index the entry is all there is to a slot
  obtain ⟨hp, hpindex⟩ := List.mem_filter.1 hp
  obtain ⟨hq, hqindex⟩ := List.mem_filter.1 hq
  have hindex : p.index = q.index := (of_decide_eq_true hpindex).trans (of_decide_eq_true hqindex).symm
  exact List.inj_on_of_nodup_map hslots hp hq (Prod.ext hindex heq)

end ActiveSet

namespace ActiveState

theorem performAll_eq_foldlM (state : ActiveState) (calls : List ActiveCall) :
    state.performAll calls = calls.foldlM perform state := by
  induction calls generalizing state with
  | nil => rfl
  | cons call calls ih =>
    rw [performAll, List.foldlM_cons]
    simp only [ih]

/-- What runs keep of the active set, whatever orderings come and go: the active clauses are the kept ones,
and for each of them is remembered what the store gave for it under some ordering. -/
structure Tracked (kept : List ClauseId) (state : ActiveState) : Prop where
  /-- The indices hold what is remembered. -/
  indexed : state.active.Indexed
  /-- The active clauses are the kept ones. -/
  ids : state.active.ids = kept
  /-- Clauses carry the numbers under which they are found. -/
  numbered : state.store.Numbered
  /-- What is remembered is what a clause of the store has under some ordering. -/
  placed : ∀ e ∈ state.active.clauses, ∃ clause order, state.store.get? e.1 = some clause ∧
    clause.placements order = .ok e.2

variable {kept : List ClauseId} {state later : ActiveState}

theorem tracked_empty {store : ClauseStore} (h : store.Numbered) : Tracked [] ⟨store, .empty⟩ where
  indexed := ActiveSet.indexed_empty
  ids := rfl
  numbered := h
  placed := fun _ he => absurd he List.not_mem_nil

/-- Every call keeps the active set in step with the kept clauses. -/
theorem Tracked.perform (h : Tracked kept state) {call : ActiveCall}
    (hstep : state.perform call = .ok later) : Tracked (call.keep kept) later := by
  obtain ⟨storeCall, rfl, rfl⟩ | ⟨ids, active, added, rfl, hadd, rfl⟩ |
    ⟨ids, active, removed, rfl, hremove, rfl⟩ := perform_cases hstep
  · refine ⟨h.indexed, h.ids, h.numbered.perform storeCall, fun e he => ?_⟩
    obtain ⟨clause, order, hget, hplaced⟩ := h.placed e he
    obtain ⟨clause', hget', hcontinues⟩ :=
      (state.store.extends_perform storeCall).continues e.1 clause hget
    refine ⟨clause', order, hget', ?_⟩
    -- a clause gains descendants at most, from which nothing is computed
    rw [hcontinues.same]
    exact hplaced
  · have hadded := h.indexed.add hadd
    refine ⟨hadded.indexed, ?_, h.numbered, fun e he => ?_⟩
    · rw [hadded.ids, h.ids]
      rfl
    · rcases hadded.placed e he with hold | ⟨clause, hget, hplaced⟩
      · exact h.placed e hold
      · exact ⟨clause, state.store.ordering, hget, hplaced⟩
  · have hreduced := h.indexed.remove hremove
    refine ⟨hreduced.indexed, ?_, h.numbered, fun e he => h.placed e ?_⟩
    · rw [hreduced.ids, h.ids]
      rfl
    · rw [hreduced.clauses] at he
      exact List.mem_of_mem_filter he

/-- Every run keeps the active set in step with the kept clauses. -/
theorem Tracked.performAll {calls : List ActiveCall} (h : Tracked kept state)
    (hrun : state.performAll calls = .ok later) : Tracked (calls.foldl ActiveCall.keep kept) later := by
  rw [performAll_eq_foldlM] at hrun
  exact holds_of_foldlM (fun _ _ _ _ _ hs hstep => hs.perform hstep) h hrun

/-- What is remembered points into an active clause, at the term that it is stored under. -/
theorem Tracked.of_mem_recorded (h : Tracked kept state) {p : Placement}
    (hp : p ∈ state.active.recorded) :
    p.entry.clause ∈ state.active.ids ∧ p.entry.term? state.store = some p.term ∧
      (p.index ≠ .rewriters → p.term.isVar = false) := by
  obtain ⟨e, he, hp⟩ := List.mem_flatMap.1 hp
  obtain ⟨clause, order, hget, hplaced⟩ := h.placed e he
  have hclause : p.entry.clause = e.1 :=
    (Clause.entry_clause_of_mem_placements hplaced hp).trans (h.numbered e.1 clause hget)
  obtain ⟨hpoints, hvar⟩ := Clause.pointsTo_of_mem_placements hplaced hp
  refine ⟨hclause ▸ List.mem_map_of_mem he, ?_, hvar⟩
  exact TermEntry.term?_eq_some_iff.2 ⟨clause, hclause ▸ hget, hpoints⟩

/-- Every position of an active clause that is no variable is remembered for the index of all subterms. -/
theorem Tracked.mem_recorded (h : Tracked kept state) {entry : TermEntry} {t : Term}
    (hactive : entry.clause ∈ state.active.ids) (hterm : entry.term? state.store = some t)
    (hvar : t.isVar = false) : ⟨.subterms, t, entry⟩ ∈ state.active.recorded := by
  obtain ⟨clause, hget, hpoints⟩ := TermEntry.term?_eq_some_iff.1 hterm
  obtain ⟨e, he, hid⟩ := List.mem_map.1 hactive
  obtain ⟨clause', order, hget', hplaced⟩ := h.placed e he
  rw [hid, hget, Option.some.injEq] at hget'
  subst hget'
  have hclause : entry.clause = clause.id := (h.numbered _ clause hget).symm
  exact List.mem_flatMap.2 ⟨e, he, Clause.mem_placements_of_pointsTo hplaced hclause hpoints hvar⟩

/-- Nothing is remembered twice: within a clause, and for different clauses since entries name them. -/
theorem Tracked.nodup_slots (h : Tracked kept state) :
    (state.active.recorded.map Placement.slot).Nodup := by
  have howned : ∀ e ∈ state.active.clauses, ∀ p ∈ e.2, p.entry.clause = e.1 := by
    intro e he p hp
    obtain ⟨clause, order, hget, hplaced⟩ := h.placed e he
    exact (Clause.entry_clause_of_mem_placements hplaced hp).trans (h.numbered e.1 clause hget)
  rw [ActiveSet.recorded, List.map_flatMap, List.nodup_flatMap]
  constructor
  · intro e he
    obtain ⟨clause, order, -, hplaced⟩ := h.placed e he
    exact Clause.nodup_slots_placements hplaced
  · refine (List.pairwise_map.1 h.indexed.nodup).imp_of_mem fun {e d} he hd hne => ?_
    refine disjoint_slots fun p hp q hq heq => hne ?_
    rw [← howned e he p hp, ← howned d hd q hq]
    exact congrArg (fun slot => slot.2.clause) heq

/-- **Every entry points at the term that it is stored under, once.** After every run, whatever clauses were
added and taken out, while the store grew and its settings changed:

* the active clauses are those that were added and not taken out since;
* an entry of a term index belongs to an active clause, and looking it up gives a term with the keys that it
  is stored under, which is no variable in the two indices of subterms;
* no entry occurs twice in one index;
* the index of all subterms holds exactly the positions, other than variables, of all sides of all literals
  of the active clauses, under the keys of the terms there. -/
theorem entries_exact (ordering : TermOrder) (selector : Selector) {calls : List ActiveCall}
    {state : ActiveState} (hrun : performAll ⟨.new ordering selector, .empty⟩ calls = .ok state) :
    state.active.ids = ActiveCall.keptAfter calls ∧
    (∀ index keys entry, (keys, entry) ∈ (state.active.tree index).entries TermEntry.le →
      entry.clause ∈ state.active.ids ∧ ∃ t : Term, entry.term? state.store = some t ∧
        t.storedKeys = keys ∧ (index ≠ .rewriters → t.isVar = false)) ∧
    (∀ index, (((state.active.tree index).entries TermEntry.le).map (·.2)).Nodup) ∧
    ∀ id i side path keys,
      (keys, (⟨id, i, side, path⟩ : TermEntry)) ∈ state.active.subterms.entries TermEntry.le ↔
        id ∈ state.active.ids ∧ ∃ clause lit s, ∃ t : Term, state.store.get? id = some clause ∧
          clause.literals[i]? = some lit ∧ (side, s) ∈ lit.sides ∧ s.at? path = some t ∧
          t.isVar = false ∧ t.storedKeys = keys := by
  have h := (tracked_empty (ClauseStore.numbered_new ordering selector)).performAll hrun
  refine ⟨h.ids, fun index keys entry hentry => ?_, h.indexed.nodup_entries h.nodup_slots,
    fun id i side path keys => ?_⟩
  · obtain ⟨t, hp, hkeys⟩ := h.indexed.mem_entries_iff.1 hentry
    obtain ⟨hactive, hterm, hvar⟩ := h.of_mem_recorded hp
    exact ⟨hactive, t, hterm, hkeys, hvar⟩
  · show _ ∈ (state.active.tree .subterms).entries TermEntry.le ↔ _
    refine h.indexed.mem_entries_iff.trans ⟨?_, ?_⟩
    · rintro ⟨t, hp, hkeys⟩
      obtain ⟨hactive, hterm, hvar⟩ := h.of_mem_recorded hp
      obtain ⟨clause, hget, lit, s, hlit, hside, hat⟩ := TermEntry.term?_eq_some_iff.1 hterm
      exact ⟨hactive, clause, lit, s, t, hget, hlit, Literal.mem_sides.2 hside, hat, hvar (by simp),
        hkeys⟩
    · rintro ⟨hactive, clause, lit, s, t, hget, hlit, hside, hat, hvar, hkeys⟩
      have hterm : TermEntry.term? ⟨id, i, side, path⟩ state.store = some t :=
        TermEntry.term?_eq_some_iff.2 ⟨clause, hget, lit, s, hlit, Literal.mem_sides.1 hside, hat⟩
      exact ⟨t, h.mem_recorded hactive hterm hvar, hkeys⟩

/-- The clause `g(f(x), x) = a ∨ ¬p(f(a))`. -/
def nestedClause : ClauseInput where
  literals := [.equation (.app ⟨1, 2⟩ [.app ⟨0, 1⟩ [.var 0], .var 0]) (.const 0) true,
    .prop (.app ⟨2, 1⟩ [.app ⟨0, 1⟩ [.const 0]]) false]
  provenance := .input .axiomatic

/-- The clause is added, taken out, and added again under an ordering that does not orient its equation;
the trivial clause comes and goes. -/
def readdingCalls : List ActiveCall :=
  [.add [1, 1], .store (.setOrdering (.kbo { weights := [(.constant 0, 50)] })), .remove [1, 7], .add [0, 1],
    .remove [0]]

/-- The index of all subterms has `f(x)` at its position, and no entry for the variable beside it. -/
theorem entries_exact_nestedClause :
    ∃ state, performAll ⟨.new (.kbo {}) (.preset .none), .empty⟩
        (.store (.create nestedClause) :: readdingCalls) = .ok state ∧
      state.active.ids = [1] ∧
      ([.function 0 1, .star], ⟨1, 0, .left, [0]⟩) ∈ state.active.subterms.entries TermEntry.le ∧
      ∀ keys, (keys, ⟨1, 0, .left, [1]⟩) ∉ state.active.subterms.entries TermEntry.le := by
  have hseen : (performAll ⟨((ClauseStore.new (.kbo {}) (.preset .none)).create nestedClause).1, .empty⟩
      readdingCalls).map (fun state => (state.active.ids, (state.store.get? 1).map (·.literals))) =
      .ok ([1], some nestedClause.literals) := by
    rw [ClauseStore.create_new_eq_createNew _ _ (by decide) (by decide)]
    decide +kernel
  obtain ⟨state, hafter, hseen⟩ := Fault.bind_eq_ok.1 hseen
  obtain ⟨hids, clause, hget, hliterals⟩ : state.active.ids = [1] ∧
      ∃ clause, state.store.get? 1 = some clause ∧ clause.literals = nestedClause.literals := by
    simpa using Except.ok.inj hseen
  have hrun : performAll ⟨.new (.kbo {}) (.preset .none), .empty⟩
      (.store (.create nestedClause) :: readdingCalls) = .ok state := hafter
  obtain ⟨-, -, -, hexact⟩ := entries_exact (.kbo {}) (.preset .none) hrun
  refine ⟨state, hrun, hids, (hexact _ _ _ _ _).2 ?_, fun keys hkeys => ?_⟩
  · have hlit : clause.literals[0]? = nestedClause.literals[0]? := by rw [hliterals]
    exact ⟨by simp [hids], clause, _, _, .app ⟨0, 1⟩ [.var 0], hget, hlit, List.mem_cons_self, rfl, rfl,
      rfl⟩
  · obtain ⟨-, clause', lit, s, t, hget', hlit, hside, hat, hvar, -⟩ := (hexact _ _ _ _ _).1 hkeys
    rw [hget, Option.some.injEq] at hget'
    subst hget'
    rw [hliterals] at hlit
    cases hlit
    rw [Literal.mem_sides] at hside
    cases hside
    cases hat
    cases hvar

end ActiveState

end GivenClause
