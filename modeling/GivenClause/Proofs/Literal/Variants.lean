import Mathlib.Data.List.Nodup
import Mathlib.Data.Set.Function
import GivenClause.Proofs.Term.Replacing

/-! # Variants and canonical literals

Two literal sequences are variants of each other when a bijection between their variables turns one into
the other. Numbering the variables in order of first occurrence picks one sequence from each class of
variants.

* `Variant` with `Variant.symm` and `Variant.trans`;
* `literalVariables_renameLiterals`: an injective renaming keeps the order of first occurrence;
* `variant_canonicalLiterals`: canonical literals are a variant of what they were made from;
* `literalVariables_canonicalLiterals` and `canonicalLiterals_eq_self`: canonical literals are those whose
  variables are numbered 0, 1, … in order of first occurrence;
* `canonicalLiterals_eq_iff`: two sequences have the same canonical literals exactly when they are
  variants of each other. -/

namespace GivenClause

open InsertionOrder

/-! ## Renaming literal sequences -/

/-- Renames the variables of a literal sequence and keeps every symbol. -/
def renameLiterals (f : Nat → Nat) (literals : List Literal) : List Literal :=
  literals.map (Literal.mapTerms (Term.mapVars f))

theorem mem_literalVariables {literals : List Literal} {v : Nat} :
    v ∈ literalVariables literals ↔
      ∃ lit ∈ literals, ∃ t ∈ lit.terms, v ∈ TermOver.varOccurrences t := by
  simp [literalVariables, literalVariablesAfter, Literal.varOccurrences]

theorem nodup_literalVariables (literals : List Literal) : (literalVariables literals).Nodup :=
  nodup_insertAll _ List.nodup_nil

/-- The variable occurrences of a literal are renamed one by one. -/
theorem Literal.varOccurrences_mapVars (f : Nat → Nat) (lit : Literal) :
    (lit.mapTerms (Term.mapVars f)).varOccurrences = lit.varOccurrences.map f := by
  rw [varOccurrences, varOccurrences, terms_mapTerms, List.flatMap_map, List.map_flatMap]
  exact List.flatMap_congr fun t _ => TermOver.varOccurrences_map f _ t

/-- A renaming matters on the variables of the sequence and on nothing else. -/
theorem renameLiterals_congr {f g : Nat → Nat} {literals : List Literal}
    (h : ∀ v ∈ literalVariables literals, f v = g v) :
    renameLiterals f literals = renameLiterals g literals := by
  refine List.map_congr_left fun lit hlit => Literal.mapTerms_congr fun t ht => ?_
  exact TermOver.map_congr fun v hv => h v (mem_literalVariables.2 ⟨lit, hlit, t, ht, hv⟩)

/-- Renaming twice is renaming once. -/
theorem renameLiterals_renameLiterals (f g : Nat → Nat) (literals : List Literal) :
    renameLiterals g (renameLiterals f literals) = renameLiterals (g ∘ f) literals := by
  rw [renameLiterals, renameLiterals, renameLiterals, List.map_map]
  refine List.map_congr_left fun lit _ => ?_
  rw [Function.comp_apply, Literal.mapTerms_mapTerms]
  exact Literal.mapTerms_congr fun t _ => TermOver.map_map f _ g _ t

/-- Renaming every variable to itself changes nothing. -/
theorem renameLiterals_id (literals : List Literal) : renameLiterals id literals = literals := by
  refine (List.map_congr_left fun lit _ => ?_).trans (List.map_id literals)
  refine (Literal.mapTerms_congr fun t _ => ?_).trans lit.mapTerms_bind_var
  rw [TermOver.bind_id]
  exact TermOver.map_id t

section Positions

variable {α β : Type} [DecidableEq α] [DecidableEq β] {f : α → β}

/-- Order of first insertion does not see an injective renaming. -/
theorem insertAll_map {xs ys : List α}
    (hf : Set.InjOn f {v | v ∈ xs ∨ v ∈ ys}) :
    insertAll (xs.map f) (ys.map f) = (insertAll xs ys).map f := by
  induction ys generalizing xs with
  | nil => rfl
  | cons y ys ih =>
    have hnew : insertNew (xs.map f) (f y) = (insertNew xs y).map f := by
      by_cases hy : y ∈ xs
      · rw [insertNew_of_mem hy, insertNew_of_mem (List.mem_map_of_mem hy)]
      · have hfy : f y ∉ xs.map f := by
          intro hmem
          obtain ⟨x, hx, hxy⟩ := List.mem_map.1 hmem
          exact hy (hf (Or.inl hx) (Or.inr List.mem_cons_self) hxy ▸ hx)
        rw [insertNew_of_not_mem hy, insertNew_of_not_mem hfy, List.map_append, List.map_singleton]
    rw [List.map_cons, insertAll_cons, insertAll_cons, hnew]
    refine ih (hf.mono ?_)
    rintro v (hv | hv)
    · rcases mem_insertNew.1 hv with hv | rfl
      · exact Or.inl hv
      · exact Or.inr List.mem_cons_self
    · exact Or.inr (List.mem_cons_of_mem y hv)

/-- What an injective renaming makes of a member stands where the member stood. -/
theorem idxOf_map_of_injOn {xs : List α} (hf : Set.InjOn f {x | x ∈ xs}) {x : α} (hx : x ∈ xs) :
    (xs.map f).idxOf (f x) = xs.idxOf x := by
  induction xs with
  | nil => cases hx
  | cons y ys ih =>
    by_cases hxy : y = x
    · rw [hxy, List.map_cons, List.idxOf_cons_self, List.idxOf_cons_self]
    · have hne : f y ≠ f x := fun h => hxy (hf List.mem_cons_self hx h)
      have hmem : x ∈ ys := (List.mem_cons.1 hx).resolve_left (Ne.symm hxy)
      rw [List.map_cons, List.idxOf_cons_ne _ hne, List.idxOf_cons_ne _ hxy,
        ih (hf.mono fun z hz => List.mem_cons_of_mem y hz) hmem]

end Positions

theorem idxOf_range {n v : Nat} (h : v < n) : (List.range n).idxOf v = v := by
  have hv : v < (List.range n).length := by simpa using h
  calc (List.range n).idxOf v = (List.range n).idxOf (List.range n)[v] := by rw [List.getElem_range]
    _ = v := List.nodup_range.idxOf_getElem v hv

/-- An injective renaming keeps the order of first occurrence. -/
theorem literalVariables_renameLiterals {f : Nat → Nat} {literals : List Literal}
    (hf : Set.InjOn f {v | v ∈ literalVariables literals}) :
    literalVariables (renameLiterals f literals) = (literalVariables literals).map f := by
  have hoccurrences : (renameLiterals f literals).flatMap Literal.varOccurrences =
      (literals.flatMap Literal.varOccurrences).map f := by
    rw [renameLiterals, List.flatMap_map, List.map_flatMap]
    exact List.flatMap_congr fun lit _ => lit.varOccurrences_mapVars f
  rw [literalVariables, literalVariablesAfter, hoccurrences]
  refine @insertAll_map _ _ _ _ _ [] _ (hf.mono ?_)
  rintro v (hv | hv)
  · cases hv
  · exact mem_insertAll.2 (Or.inr hv)

/-! ## Variants -/

/-- A bijection between the variables of two literal sequences turns the first into the second. -/
def Variant (literals literals' : List Literal) : Prop :=
  ∃ f : Nat → Nat,
    Set.BijOn f {v | v ∈ literalVariables literals} {v | v ∈ literalVariables literals'} ∧
      renameLiterals f literals = literals'

/-- A renaming that is injective on the variables makes a variant. -/
theorem variant_renameLiterals {f : Nat → Nat} {literals : List Literal}
    (hf : Set.InjOn f {v | v ∈ literalVariables literals}) :
    Variant literals (renameLiterals f literals) := by
  refine ⟨f, ?_, rfl⟩
  rw [literalVariables_renameLiterals hf]
  convert hf.bijOn_image
  ext w
  simp

namespace Variant

variable {a b c : List Literal}

theorem symm (h : Variant a b) : Variant b a := by
  obtain ⟨f, hf, rfl⟩ := h
  have hinv := hf.invOn_invFunOn
  refine ⟨Function.invFunOn f {v | v ∈ literalVariables a}, Set.BijOn.symm hinv.symm hf, ?_⟩
  rw [renameLiterals_renameLiterals]
  conv_rhs => rw [← renameLiterals_id a]
  exact renameLiterals_congr fun v hv => hinv.1 hv

theorem trans (hab : Variant a b) (hbc : Variant b c) : Variant a c := by
  obtain ⟨f, hf, rfl⟩ := hab
  obtain ⟨g, hg, rfl⟩ := hbc
  exact ⟨g ∘ f, hg.comp hf, (renameLiterals_renameLiterals f g a).symm⟩

end Variant

/-! ## Canonical literals -/

/-- Renumbering literals that are numbered in order of first occurrence changes nothing. -/
theorem renameLiterals_idxOf_eq_self {literals : List Literal} {n : Nat}
    (h : literalVariables literals = List.range n) :
    renameLiterals (literalVariables literals).idxOf literals = literals := by
  conv_rhs => rw [← renameLiterals_id literals]
  refine renameLiterals_congr fun v hv => ?_
  rw [h, List.mem_range] at hv
  rw [h, id, idxOf_range hv]

/-- A list holds at each position the number of that position exactly when it counts up from zero. -/
theorem all_zipIdx_beq_iff {xs : List Nat} :
    (xs.zipIdx.all fun e => e.1 == e.2) = true ↔ xs = List.range xs.length := by
  rw [List.all_eq_true]
  constructor
  · intro h
    refine List.ext_getElem (by simp) fun i hi _ => ?_
    rw [List.getElem_range]
    exact eq_of_beq (h (xs[i], i) (List.mem_zipIdx_iff_getElem?.2 (List.getElem?_eq_getElem hi)))
  · rintro h ⟨x, i⟩ he
    rw [List.mem_zipIdx_iff_getElem?, h] at he
    obtain ⟨hi, heq⟩ := List.getElem?_eq_some_iff.1 he
    rw [List.getElem_range] at heq
    exact beq_of_eq heq.symm

/-- Keeping literals that are numbered already is no exception: renumbering them gives the same. -/
theorem canonicalLiterals_eq_renameLiterals (literals : List Literal) :
    canonicalLiterals literals = renameLiterals (literalVariables literals).idxOf literals := by
  rw [canonicalLiterals]
  split
  · next hcanonical => exact (renameLiterals_idxOf_eq_self (all_zipIdx_beq_iff.1 hcanonical)).symm
  · rfl

theorem length_canonicalLiterals (literals : List Literal) :
    (canonicalLiterals literals).length = literals.length := by
  rw [canonicalLiterals_eq_renameLiterals, renameLiterals, List.length_map]

/-- Canonical literals are a variant of what they were made from. -/
theorem variant_canonicalLiterals (literals : List Literal) :
    Variant literals (canonicalLiterals literals) := by
  rw [canonicalLiterals_eq_renameLiterals]
  refine variant_renameLiterals fun v hv w _ hvw => ?_
  exact (List.idxOf_inj hv).1 hvw

/-- The variables of canonical literals are numbered in order of first occurrence. -/
theorem literalVariables_canonicalLiterals (literals : List Literal) :
    literalVariables (canonicalLiterals literals) = List.range (literalVariables literals).length := by
  have hnodup := nodup_literalVariables literals
  have hinj : Set.InjOn (literalVariables literals).idxOf {v | v ∈ literalVariables literals} :=
    fun v hv w _ hvw => (List.idxOf_inj hv).1 hvw
  rw [canonicalLiterals_eq_renameLiterals, literalVariables_renameLiterals hinj]
  -- the variable at position `i` gets number `i`
  refine List.ext_getElem (by simp) fun i hi _ => ?_
  rw [List.getElem_map, hnodup.idxOf_getElem, List.getElem_range]

/-- Literals whose variables are numbered in order of first occurrence are canonical. -/
theorem canonicalLiterals_eq_self {literals : List Literal} {n : Nat}
    (h : literalVariables literals = List.range n) : canonicalLiterals literals = literals := by
  rw [canonicalLiterals_eq_renameLiterals, renameLiterals_idxOf_eq_self h]

/-- Variants have the same canonical literals. -/
theorem Variant.canonicalLiterals_eq {a b : List Literal} (h : Variant a b) :
    canonicalLiterals a = canonicalLiterals b := by
  obtain ⟨f, hf, rfl⟩ := h
  rw [canonicalLiterals_eq_renameLiterals, canonicalLiterals_eq_renameLiterals,
    renameLiterals_renameLiterals, literalVariables_renameLiterals hf.injOn]
  exact renameLiterals_congr fun v hv => (idxOf_map_of_injOn hf.injOn hv).symm

/-- Two literal sequences have the same canonical literals exactly when they are variants. -/
theorem canonicalLiterals_eq_iff {a b : List Literal} :
    canonicalLiterals a = canonicalLiterals b ↔ Variant a b := by
  refine ⟨fun h => ?_, Variant.canonicalLiterals_eq⟩
  have ha := variant_canonicalLiterals a
  rw [h] at ha
  exact ha.trans (variant_canonicalLiterals b).symm

instance (a b : List Literal) : Decidable (Variant a b) :=
  decidable_of_iff _ canonicalLiterals_eq_iff

end GivenClause
