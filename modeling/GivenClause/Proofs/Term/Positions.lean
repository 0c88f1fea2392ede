import Mathlib.Data.List.Nodup
import GivenClause.Proofs.Term.Replacing

/-! # Positions in terms

The list of subterms pairs every position of a term with what stands there, in preorder and without
repetitions: it is the lookup along paths, written out.

* `TermOver.mem_subterms_iff`: what is listed with a path is what the path leads to;
* `TermOver.at?_append`: a composed path is followed in two steps;
* `TermOver.pairwise_lt_subterms`: paths ascend lexicographically, so no path is listed twice;
* `TermOver.subterms_exact` collects what the list of subterms is. -/

namespace GivenClause

namespace TermOver

variable {ν φ : Type}

@[simp] theorem at?_app_cons (f : φ) (args : List (TermOver ν φ)) (i : Nat) (path : Path) :
    (app f args).at? (i :: path) = args[i]?.bind fun arg => arg.at? path := by
  rw [at?]
  cases args[i]? <;> rfl

/-- What is listed with a path is what the path leads to. -/
theorem mem_subterms_iff {t u : TermOver ν φ} {path : Path} :
    (path, u) ∈ t.subterms ↔ t.at? path = some u := by
  refine ⟨fun h => ?_, mem_subterms_of_at?⟩
  induction t generalizing path with
  | var v =>
    cases List.mem_singleton.1 h
    rfl
  | const c =>
    cases List.mem_singleton.1 h
    rfl
  | app f args ih =>
    obtain heq | ⟨i, a, hi, ⟨below, d⟩, hd, heq⟩ := mem_subterms_app.1 h
    · cases heq
      rfl
    · cases heq
      rw [at?_app_cons, hi, Option.bind_some]
      exact ih a (List.mem_of_getElem? hi) hd

/-- The subterm at a composed path is found in two steps. -/
theorem at?_append (t : TermOver ν φ) (path below : Path) :
    t.at? (path ++ below) = (t.at? path).bind fun u => u.at? below := by
  induction path generalizing t with
  | nil => rw [List.nil_append, at?_nil, Option.bind_some]
  | cons i path ih =>
    cases t with
    | var v => rfl
    | const c => rfl
    | app f args =>
      rw [List.cons_append, at?_app_cons, at?_app_cons]
      cases args[i]? with
      | none => rfl
      | some arg => exact ih arg

/-! ## Preorder -/

/-- The paths into arguments, the first of which has index `i`, ascend when those into each argument do. -/
theorem pairwise_lt_walkFrom_nil {args : List (TermOver ν φ)}
    (h : ∀ a ∈ args, (a.subterms.map Prod.fst).Pairwise (· < ·)) (i : Nat) :
    ((walkFrom [] i args).map Prod.fst).Pairwise (· < ·) := by
  induction args generalizing i with
  | nil => exact List.Pairwise.nil
  | cons t ts ih =>
    obtain ⟨ht, hts⟩ := List.forall_mem_cons.1 h
    rw [walkFrom_nil_cons, List.map_append, List.map_map, List.pairwise_append]
    refine ⟨?_, ih hts (i + 1), fun path hpath path' hpath' => ?_⟩
    · rw [List.pairwise_map] at ht ⊢
      exact ht.imp fun hlt => List.cons_lt_cons_iff.2 (Or.inr ⟨rfl, hlt⟩)
    · -- paths into the first argument start with `i`, the others with a larger number
      obtain ⟨d, -, rfl⟩ := List.mem_map.1 hpath
      obtain ⟨e, he, rfl⟩ := List.mem_map.1 hpath'
      obtain ⟨j, a, -, d', -, rfl⟩ := mem_walkFrom_nil.1 he
      exact List.cons_lt_cons_iff.2 (Or.inl (by omega))

/-- Subterms are listed in preorder: paths ascend lexicographically, where a path comes before those that go
on from it. -/
theorem pairwise_lt_subterms (t : TermOver ν φ) : (t.subterms.map Prod.fst).Pairwise (· < ·) := by
  induction t with
  | var v => exact List.pairwise_singleton _ _
  | const c => exact List.pairwise_singleton _ _
  | app f args ih =>
    rw [subterms_app, List.map_cons, List.pairwise_cons]
    refine ⟨fun path hpath => ?_, pairwise_lt_walkFrom_nil ih 0⟩
    obtain ⟨e, he, rfl⟩ := List.mem_map.1 hpath
    obtain ⟨j, a, -, d, -, rfl⟩ := mem_walkFrom_nil.1 he
    exact List.nil_lt_cons _ _

/-- No path is listed twice. -/
theorem nodup_map_fst_subterms (t : TermOver ν φ) : (t.subterms.map Prod.fst).Nodup := by
  refine t.pairwise_lt_subterms.imp ?_
  rintro path _ hlt rfl
  exact List.lt_irrefl path hlt

theorem length_walkFrom_nil {args : List (TermOver ν φ)}
    (h : ∀ a ∈ args, a.subterms.length = a.size) (i : Nat) :
    (walkFrom [] i args).length = sizeList args := by
  induction args generalizing i with
  | nil => rfl
  | cons t ts ih =>
    obtain ⟨ht, hts⟩ := List.forall_mem_cons.1 h
    rw [walkFrom_nil_cons, List.length_append, List.length_map, ht, ih hts, sizeList]

/-- There are as many subterms as symbols and variable occurrences. -/
theorem length_subterms (t : TermOver ν φ) : t.subterms.length = t.size := by
  induction t with
  | var v => rfl
  | const c => rfl
  | app f args ih => rw [subterms_app, List.length_cons, length_walkFrom_nil ih, size, Nat.add_comm]

/-- The list of subterms is the lookup along paths, written out:

* what is listed with a path is what the path leads to;
* a path that leads somewhere is listed once, and no other path is listed;
* the paths ascend lexicographically, which is preorder;
* there are as many entries as symbols and variable occurrences;
* a composed path leads where its second part leads from where the first one does. -/
theorem subterms_exact (t : TermOver ν φ) :
    (∀ path u, (path, u) ∈ t.subterms ↔ t.at? path = some u) ∧
    (∀ path, (t.subterms.map Prod.fst).count path = if (t.at? path).isSome then 1 else 0) ∧
    (t.subterms.map Prod.fst).Pairwise (· < ·) ∧
    t.subterms.length = t.size ∧
    ∀ path below, t.at? (path ++ below) = (t.at? path).bind fun u => u.at? below := by
  refine ⟨fun path u => mem_subterms_iff, fun path => ?_, t.pairwise_lt_subterms, t.length_subterms,
    t.at?_append⟩
  split
  · next hsome =>
    obtain ⟨u, hu⟩ := Option.isSome_iff_exists.1 hsome
    exact List.count_eq_one_of_mem t.nodup_map_fst_subterms
      (List.mem_map.2 ⟨(path, u), mem_subterms_iff.2 hu, rfl⟩)
  · next hnone =>
    refine List.count_eq_zero.2 fun hpath => hnone ?_
    obtain ⟨⟨_, u⟩, he, rfl⟩ := List.mem_map.1 hpath
    exact Option.isSome_iff_exists.2 ⟨u, mem_subterms_iff.1 he⟩

end TermOver

end GivenClause
