import GivenClause.Proofs.Clause.KeptLiterals
import GivenClause.Proofs.Clause.StoreIntegrity

/-! # Selecting the heaviest negative literal

The strategy looks at the negative literals that no other negative literal is greater than, and picks the
heaviest of them. Weight and order may disagree, so the literal that is picked need not be the heaviest of
all. There is something to pick from as soon as there is a negative literal at all, since the order on literals
is a strict order and there are finitely many of them.

* `Selection.Topmost` is the property, `Selection.topmost_iff` ties the computed list to it;
* `Selection.undominated_eq_nil_iff`: among negative literals one is topmost;
* `Selection.heaviest?_isGreatest`: the scan keeps the heaviest, the leftmost of equally heavy ones;
* `Selection.negMaxWeight_exact` is the result for the strategy. -/

namespace GivenClause

/-- The set of one index that fits lists that index. -/
theorem LiteralSet.exists_ofList_singleton {i : Nat} (hi : i < capacity) :
    ∃ set, ofList [i] = .ok set ∧ set.toList = [i] := by
  obtain ⟨set, hset⟩ : ∃ set, empty.insert i = .ok set := ⟨_, if_pos hi⟩
  refine ⟨set, by simp only [ofList, insertAll, hset], ?_⟩
  have hcontains : ∀ j, set.contains j = (j == i) := fun j => by
    rw [contains_insert hset, contains_empty, Bool.false_or]
    rfl
  rw [toList, funext hcontains, List.filter_beq, List.count_eq_one_of_mem List.nodup_range
    (List.mem_range.2 hi), List.replicate_one]

namespace Selection

variable {kbo : Kbo} {literals : List Literal}

/-! ## Literals that nothing dominates -/

/-- The literal at an index is negative, and no negative literal at another index compares as greater. -/
structure Topmost (kbo : Kbo) (literals : List Literal) (i : Nat) (lit : Literal) : Prop where
  /-- It stands at the index. -/
  at_index : literals[i]? = some lit
  /-- It is negative. -/
  negative : lit.isNegative = true
  /-- No other negative literal is greater. -/
  unbeaten : ∀ j other, literals[j]? = some other → other.isNegative = true → j ≠ i →
    ∃ c, TermOrder.compareLiterals kbo other lit = .ok c ∧ c ≠ .gt

theorem mem_negatives {e : Literal × Nat} :
    e ∈ negatives literals ↔ literals[e.2]? = some e.1 ∧ e.1.isNegative = true := by
  rw [negatives, List.mem_filter, List.mem_zipIdx_iff_getElem?]

theorem negatives_eq_nil_iff : negatives literals = [] ↔ ∀ lit ∈ literals, lit.isNegative = false := by
  rw [List.eq_nil_iff_forall_not_mem]
  constructor
  · intro h lit hlit
    obtain ⟨i, hi⟩ := List.mem_iff_getElem?.1 hlit
    exact Bool.eq_false_iff.2 fun hneg => h (lit, i) (mem_negatives.2 ⟨hi, hneg⟩)
  · intro h e he
    obtain ⟨hindex, hneg⟩ := mem_negatives.1 he
    exact Bool.eq_false_iff.1 (h e.1 (List.mem_of_getElem? hindex)) hneg

/-- The negative literals are listed from left to right. -/
theorem pairwise_negatives (literals : List Literal) :
    (negatives literals).Pairwise fun d e => d.2 < e.2 := by
  refine List.Pairwise.filter _ (List.pairwise_map.1 ?_)
  rw [List.zipIdx_map_snd]
  exact List.pairwise_lt_range'

/-- Nothing dominates a literal exactly when all comparisons have an outcome and none is "greater". -/
theorem isDominated_eq_false_iff {e : Literal × Nat} {ds : List (Literal × Nat)} :
    isDominated kbo e ds = .ok false ↔
      ∀ d ∈ ds, d.2 ≠ e.2 → ∃ c, TermOrder.compareLiterals kbo d.1 e.1 = .ok c ∧ c ≠ .gt := by
  induction ds with
  | nil => simp [isDominated]
  | cons d ds ih =>
    rw [isDominated, List.forall_mem_cons, ← ih]
    split
    · next hsame => exact (and_iff_right fun hne => absurd hsame hne).symm
    · next hother =>
      rw [Fault.bind_eq_ok]
      constructor
      · rintro ⟨c, hc, hrest⟩
        split at hrest
        · cases hrest
        · next hnot => exact ⟨fun _ => ⟨c, hc, hnot⟩, hrest⟩
      · rintro ⟨hfirst, hrest⟩
        obtain ⟨c, hc, hnot⟩ := hfirst hother
        exact ⟨c, hc, by rwa [if_neg hnot]⟩

/-- A dominated literal was found smaller than one at another index. -/
theorem exists_greater_of_isDominated {e : Literal × Nat} {ds : List (Literal × Nat)}
    (h : isDominated kbo e ds = .ok true) :
    ∃ d ∈ ds, d.2 ≠ e.2 ∧ TermOrder.compareLiterals kbo d.1 e.1 = .ok .gt := by
  induction ds with
  | nil => cases h
  | cons d ds ih =>
    rw [isDominated] at h
    split at h
    · obtain ⟨u, hu, hgreater⟩ := ih h
      exact ⟨u, List.mem_cons_of_mem d hu, hgreater⟩
    · next hother =>
      obtain ⟨c, hc, hrest⟩ := Fault.bind_eq_ok.1 h
      split at hrest
      · next hgt => exact ⟨d, List.mem_cons_self, hother, hgt ▸ hc⟩
      · obtain ⟨u, hu, hgreater⟩ := ih hrest
        exact ⟨u, List.mem_cons_of_mem d hu, hgreater⟩

/-- Where all comparisons have an outcome, it is decided whether a literal is dominated. -/
theorem exists_isDominated {e : Literal × Nat} {ds : List (Literal × Nat)}
    (h : ∀ d ∈ ds, ∃ c, TermOrder.compareLiterals kbo d.1 e.1 = .ok c) :
    ∃ b, isDominated kbo e ds = .ok b := by
  induction ds with
  | nil => exact ⟨false, rfl⟩
  | cons d ds ih =>
    obtain ⟨⟨c, hc⟩, hds⟩ := List.forall_mem_cons.1 h
    rw [isDominated, hc]
    split
    · exact ih hds
    · by_cases hgt : c = .gt
      · exact ⟨true, if_pos hgt⟩
      · obtain ⟨b, hb⟩ := ih hds
        exact ⟨b, (if_neg hgt).trans hb⟩

/-- A literal that nothing in the list of negative ones dominates is topmost. -/
theorem topmost_iff {e : Literal × Nat} :
    Topmost kbo literals e.2 e.1 ↔
      e ∈ negatives literals ∧ isDominated kbo e (negatives literals) = .ok false := by
  rw [isDominated_eq_false_iff, mem_negatives]
  constructor
  · rintro ⟨hindex, hnegative, hunbeaten⟩
    refine ⟨⟨hindex, hnegative⟩, fun d hd hne => ?_⟩
    obtain ⟨hd, hneg⟩ := mem_negatives.1 hd
    exact hunbeaten d.2 d.1 hd hneg hne
  · rintro ⟨⟨hindex, hnegative⟩, hunbeaten⟩
    exact ⟨hindex, hnegative, fun j other hj hneg => hunbeaten (other, j) (mem_negatives.2 ⟨hj, hneg⟩)⟩

/-- What is left of the negative literals are the topmost ones. -/
theorem mem_undominated_iff {maximal : List (Literal × Nat)}
    (h : undominated kbo (negatives literals) (negatives literals) = .ok maximal)
    {e : Literal × Nat} : e ∈ maximal ↔ Topmost kbo literals e.2 e.1 := by
  rw [(undominated_eq_ok_iff.1 h).2, List.mem_filter, decide_eq_true_iff, topmost_iff]

/-- Something is left as soon as there is a negative literal. -/
theorem undominated_eq_nil_iff {maximal : List (Literal × Nat)}
    (h : undominated kbo (negatives literals) (negatives literals) = .ok maximal) :
    maximal = [] ↔ negatives literals = [] := by
  obtain ⟨hdecided, hfilter⟩ := undominated_eq_ok_iff.1 h
  refine ⟨fun hnil => ?_, fun hnil => by rw [hfilter, hnil, List.filter_nil]⟩
  -- if nothing is left, every negative literal is below another one
  have hbelow : ∀ e ∈ negatives literals, BelowOther kbo false e (negatives literals) := by
    intro e he
    obtain ⟨b, hb⟩ := hdecided e he
    cases b with
    | false =>
      have hkept : e ∈ maximal := (mem_undominated_iff h).2 (topmost_iff.2 ⟨he, hb⟩)
      rw [hnil] at hkept
      exact absurd hkept List.not_mem_nil
    | true =>
      obtain ⟨d, hd, hindex, hgt⟩ := exists_greater_of_isDominated hb
      have htells := (kbo.compareLiterals_yields d.1 e.1).sound .gt hgt
      exact ⟨d, hd, hindex, fun hfalse => absurd hfalse Bool.false_ne_true,
        (htells.eq_gt_iff (fun h => h.ne) fun h => h.asymm).1 rfl⟩
  refine List.eq_nil_iff_forall_not_mem.2 fun e he => ?_
  -- but going up from one of them ends at a literal that is below none
  obtain ⟨d, hd, -, -, hnone⟩ := (hbelow e he).exists_maximal he
  exact hnone (hbelow d hd)

/-! ## The scan for the heaviest -/

theorem heaviest?_eq_none_iff {es : List (Literal × Nat)} : heaviest? es = .none ↔ es = [] := by
  cases es with
  | nil => exact iff_of_true rfl rfl
  | cons e es =>
    refine iff_of_false (fun h => ?_) (List.cons_ne_nil e es)
    rw [heaviest?] at h
    split at h
    · cases h
    · split at h <;> cases h

/-- The scan keeps the heaviest literal, and of equally heavy ones the leftmost. -/
theorem heaviest?_isGreatest {es : List (Literal × Nat)} {e : Literal × Nat}
    (h : heaviest? es = some e) (hes : es.Pairwise fun d e => d.2 < e.2) :
    ∀ d ∈ es, d.1.weight ≤ e.1.weight ∧ (d.1.weight = e.1.weight → e.2 ≤ d.2) := by
  induction es generalizing e with
  | nil => cases h
  | cons u es ih =>
    obtain ⟨hfirst, hes⟩ := List.pairwise_cons.1 hes
    rw [heaviest?] at h
    rw [List.forall_mem_cons]
    split at h
    · next hnone =>
      cases h
      rw [heaviest?_eq_none_iff.1 hnone]
      exact ⟨⟨le_rfl, fun _ => le_rfl⟩, fun _ hd => absurd hd List.not_mem_nil⟩
    · next best hbest =>
      have hrest := ih hbest hes
      split at h
      · next hle =>
        -- the first literal wins ties, and all others stand to its right
        cases h
        refine ⟨⟨le_rfl, fun _ => le_rfl⟩, fun d hd => ⟨(hrest d hd).1.trans hle, fun _ => ?_⟩⟩
        exact (hfirst d hd).le
      · next hlt =>
        cases h
        exact ⟨⟨(not_le.1 hlt).le, fun heq => absurd heq.ge hlt⟩, hrest⟩

/-! ## The strategy -/

/-- Where the weights of the negative literals fit, no comparison overflows. -/
theorem exists_undominated
    (hfits : ∀ lit ∈ literals, lit.isNegative = true → kbo.LiteralFits lit) :
    ∃ maximal, undominated kbo (negatives literals) (negatives literals) = .ok maximal := by
  have hfits' : ∀ e ∈ negatives literals, kbo.LiteralFits e.1 := fun e he =>
    hfits e.1 (List.mem_of_getElem? (mem_negatives.1 he).1) (mem_negatives.1 he).2
  refine ⟨_, undominated_eq_ok_iff.2 ⟨fun e he => exists_isDominated fun d hd => ?_, rfl⟩⟩
  exact (kbo.compareLiterals_yields d.1 e.1).total ⟨hfits' d hd, hfits' e he⟩

/-- Once the topmost literals are known, the strategy picks the heaviest of them. -/
theorem exists_select_negMaxWeight (hshort : literals.length ≤ LiteralSet.capacity)
    {maximal : List (Literal × Nat)}
    (h : undominated kbo (negatives literals) (negatives literals) = .ok maximal) :
    ∃ set, Selection.negMaxWeight.select kbo literals = .ok set ∧
      set.toList = (heaviest? maximal).toList.map (·.2) := by
  have hselect : Selection.negMaxWeight.select kbo literals =
      LiteralSet.ofList ((heaviest? maximal).toList.map (·.2)) := by
    rw [select, h]
    rfl
  rw [hselect]
  cases hheaviest : heaviest? maximal with
  | none => exact ⟨.empty, rfl, by decide⟩
  | some e =>
    have htop := (mem_undominated_iff h).1 (heaviest?_mem hheaviest)
    have hlt : e.2 < literals.length := (List.getElem?_eq_some_iff.1 htop.at_index).1
    exact LiteralSet.exists_ofList_singleton (hlt.trans_le hshort)

/-- The strategy always finds its literal. For every list of at most 64 literals:

* if the weights of the negative literals fit, nothing overflows;
* if nothing overflows, a set is picked, and it is empty exactly when no literal is negative;
* otherwise it holds one index. The literal there is negative and below no other negative one; of all such
  literals it is the heaviest, and the leftmost of equally heavy ones. -/
theorem negMaxWeight_exact (kbo : Kbo) {literals : List Literal}
    (hshort : literals.length ≤ LiteralSet.capacity) :
    ((∀ lit ∈ literals, lit.isNegative = true → kbo.LiteralFits lit) →
      Selection.negMaxWeight.select kbo literals ≠ .error .weightOverflow) ∧
    (Selection.negMaxWeight.select kbo literals ≠ .error .weightOverflow →
      ∃ set, Selection.negMaxWeight.select kbo literals = .ok set ∧
        (set.isEmpty = true ↔ ∀ lit ∈ literals, lit.isNegative = false) ∧
        (set.isEmpty = false → ∃ i lit, set.toList = [i] ∧ Topmost kbo literals i lit ∧
          ∀ j other, Topmost kbo literals j other →
            other.weight ≤ lit.weight ∧ (other.weight = lit.weight → i ≤ j))) := by
  refine ⟨fun hfits => ?_, fun hno => ?_⟩
  · obtain ⟨maximal, hmaximal⟩ := exists_undominated hfits
    obtain ⟨set, hset, -⟩ := exists_select_negMaxWeight hshort hmaximal
    rw [hset]
    exact fun h => by cases h
  · -- a run that gives a set has decided all comparisons it needed
    obtain ⟨picked, hpicked⟩ := (select_onlyOverflows .negMaxWeight kbo hshort).exists_ok hno
    obtain ⟨maximal, hmaximal, -⟩ := Fault.bind_eq_ok.1 hpicked
    obtain ⟨set, hset, hlist⟩ := exists_select_negMaxWeight hshort hmaximal
    have hempty : set.isEmpty = true ↔ heaviest? maximal = .none := by
      rw [LiteralSet.isEmpty_iff_toList, hlist, List.map_eq_nil_iff, Option.toList_eq_nil_iff]
    refine ⟨set, hset, ?_, fun hne => ?_⟩
    · rw [hempty, heaviest?_eq_none_iff, undominated_eq_nil_iff hmaximal, negatives_eq_nil_iff]
    · obtain ⟨e, he⟩ := Option.ne_none_iff_exists'.1 (mt hempty.2 (Bool.eq_false_iff.1 hne))
      have hsorted : maximal.Pairwise fun d e => d.2 < e.2 := by
        rw [(undominated_eq_ok_iff.1 hmaximal).2]
        exact (pairwise_negatives literals).filter _
      refine ⟨e.2, e.1, by rw [hlist, he]; rfl, (mem_undominated_iff hmaximal).1 (heaviest?_mem he), ?_⟩
      intro j other htop
      exact heaviest?_isGreatest he hsorted (other, j) ((mem_undominated_iff hmaximal).2 htop)

/-- Of `p(x) ∨ ¬q(x) ∨ ¬p(p(a)) ∨ ¬q(y)` the second literal is picked. The third has more symbols, but `q` is
heavier in the order, and the fourth is as heavy and stands further right. -/
theorem negMaxWeight_exact_lighter :
    let kbo : Kbo := { weights := [(.function 1, 9)] }
    let first : Literal := .prop (.app ⟨1, 1⟩ [.var 0]) false
    let heavier : Literal := .prop (.app ⟨0, 1⟩ [.app ⟨0, 1⟩ [.const 0]]) false
    let literals : List Literal :=
      [.prop (.app ⟨0, 1⟩ [.var 0]) true, first, heavier, .prop (.app ⟨1, 1⟩ [.var 1]) false]
    literals.length ≤ LiteralSet.capacity ∧
      (∀ lit ∈ literals, lit.isNegative = true → kbo.LiteralFits lit) ∧
      (∃ set, Selection.negMaxWeight.select kbo literals = .ok set ∧ set.toList = [1]) ∧
      Topmost kbo literals 1 first ∧ ¬ Topmost kbo literals 2 heavier ∧
      first.weight < heavier.weight := by
  intro kbo first heavier literals
  have hshort : literals.length ≤ LiteralSet.capacity := by decide
  have hfits : ∀ lit ∈ literals, lit.isNegative = true →
      ∀ t ∈ lit.terms, kbo.exactWeight t < Kbo.weightBound := by decide +kernel
  obtain ⟨hnever, hpicks⟩ := negMaxWeight_exact kbo hshort
  obtain ⟨set, hset, -, hone⟩ := hpicks (hnever hfits)
  have heq : set = ⟨2⟩ := Except.ok.inj (hset.symm.trans (by decide +kernel))
  have hlist : set.toList = [1] := by
    rw [heq]
    decide
  obtain ⟨i, lit, hi, htop, hgreatest⟩ := hone (by rw [heq]; decide)
  rw [hlist, List.singleton_inj] at hi
  subst hi
  cases htop.at_index
  refine ⟨hshort, hfits, ⟨set, hset, hlist⟩, htop, fun hheavier => ?_, by decide⟩
  exact absurd (hgreatest 2 heavier hheavier).1 (by decide)

end Selection

end GivenClause
