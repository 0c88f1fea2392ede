/-! # Lists in order of first insertion

A duplicate-free list that grows at its end records in which order values were first met. The same
idea numbers the variables of a clause, the names of a symbol table and the clauses of a search set:
the number of a value is its position, and no later insertion changes it.

* `insertNew xs x` adds `x` at the end unless it is there already;
* `insertAll xs ys` adds the members of `ys` one after the other. -/

namespace GivenClause.InsertionOrder

variable {α : Type} [DecidableEq α]

/-- Adds `x` at the end of `xs` unless `xs` holds it already. -/
def insertNew (xs : List α) (x : α) : List α :=
  if x ∈ xs then xs else xs ++ [x]

/-- Adds the members of `ys`, first to last, each at the end unless it is there already. -/
def insertAll (xs ys : List α) : List α :=
  ys.foldl insertNew xs

@[simp] theorem insertNew_of_mem {xs : List α} {x : α} (h : x ∈ xs) : insertNew xs x = xs :=
  if_pos h

@[simp] theorem insertNew_of_not_mem {xs : List α} {x : α} (h : x ∉ xs) :
    insertNew xs x = xs ++ [x] :=
  if_neg h

@[simp] theorem insertAll_nil (xs : List α) : insertAll xs [] = xs := rfl

@[simp] theorem insertAll_cons (xs : List α) (y : α) (ys : List α) :
    insertAll xs (y :: ys) = insertAll (insertNew xs y) ys := rfl

theorem insertAll_append (xs ys zs : List α) :
    insertAll xs (ys ++ zs) = insertAll (insertAll xs ys) zs := by
  simp [insertAll, List.foldl_append]

@[simp] theorem mem_insertNew {xs : List α} {x y : α} :
    y ∈ insertNew xs x ↔ y ∈ xs ∨ y = x := by
  unfold insertNew
  split
  · next h => exact ⟨Or.inl, fun hy => hy.elim id (fun e => e ▸ h)⟩
  · simp

@[simp] theorem mem_insertAll {xs ys : List α} {y : α} :
    y ∈ insertAll xs ys ↔ y ∈ xs ∨ y ∈ ys := by
  induction ys generalizing xs with
  | nil => simp
  | cons z zs ih => simp [ih, or_assoc]

theorem nodup_insertNew {xs : List α} (x : α) (h : xs.Nodup) : (insertNew xs x).Nodup := by
  unfold insertNew
  split
  · exact h
  · next hx =>
    refine List.nodup_append.2 ⟨h, by simp, ?_⟩
    intro a ha b hb e
    simp only [List.mem_singleton] at hb
    exact hx (hb ▸ e ▸ ha)

theorem nodup_insertAll {xs : List α} (ys : List α) (h : xs.Nodup) : (insertAll xs ys).Nodup := by
  induction ys generalizing xs with
  | nil => exact h
  | cons y ys ih => exact ih (nodup_insertNew y h)

/-- Insertion never moves what is there: the old list stays in front. -/
theorem isPrefix_insertNew (xs : List α) (x : α) : xs <+: insertNew xs x := by
  unfold insertNew
  split
  · exact List.prefix_rfl
  · exact List.prefix_append _ _

/-- Inserting many values never moves what is there: the old list stays in front. -/
theorem isPrefix_insertAll (xs ys : List α) : xs <+: insertAll xs ys := by
  induction ys generalizing xs with
  | nil => exact List.prefix_rfl
  | cons y ys ih => exact (isPrefix_insertNew xs y).trans (ih _)

end GivenClause.InsertionOrder
