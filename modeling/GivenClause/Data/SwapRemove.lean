/-! # Removal by moving the last element

Taking an element out of an unordered store in constant time moves the last element into the gap.
The order of the other elements is visible to whoever lists the store, so it is fixed here.

* `swapRemove xs i` takes out position `i`;
* `swapRemoveFirst? xs x` takes out the first copy of `x`, if there is one;
* `eraseBySwap?` does the same to an array. -/

namespace GivenClause

variable {α : Type}

/-- Takes out position `i`; the last element moves into the gap. -/
def swapRemove (xs : List α) (i : Nat) : List α :=
  match xs.getLast? with
  | none => []
  | some last => (xs.set i last).dropLast

/-- Takes out the first element equal to `x` by `swapRemove`; `none` when there is none. -/
def swapRemoveFirst? [DecidableEq α] (xs : List α) (x : α) : Option (List α) :=
  if x ∈ xs then some (swapRemove xs (xs.idxOf x)) else none

@[simp] theorem swapRemove_nil (i : Nat) : swapRemove ([] : List α) i = [] := rfl

theorem swapRemoveFirst?_eq_none_iff [DecidableEq α] {xs : List α} {x : α} :
    swapRemoveFirst? xs x = none ↔ x ∉ xs := by
  simp [swapRemoveFirst?]

/-- Takes the first element equal to `x` out of an array, whose last element moves into the gap; `none`
when there is none. -/
def eraseBySwap? [DecidableEq α] (xs : Array α) (x : α) : Option (Array α) :=
  match xs.idxOf? x, xs.back? with
  | some i, some last => some (xs.setIfInBounds i last).pop
  | _, _ => none

/-- Arrays and lists lose the same element in the same way. -/
theorem toList_eraseBySwap? [DecidableEq α] (xs : Array α) (x : α) :
    (eraseBySwap? xs x).map Array.toList = swapRemoveFirst? xs.toList x := by
  rcases xs with ⟨xs⟩
  simp only [eraseBySwap?, swapRemoveFirst?, swapRemove, List.idxOf?_toArray, List.back?_toArray]
  by_cases h : x ∈ xs
  · obtain ⟨last, hl⟩ := Option.isSome_iff_exists.1 (List.getLast?_isSome.2 (List.ne_nil_of_mem h))
    have hi : xs.idxOf? x = some (xs.idxOf x) :=
      List.findIdx?_eq_some_iff_findIdx_eq.2 ⟨List.idxOf_lt_length_of_mem h, rfl⟩
    simp [h, hl, hi]
  · have hi : xs.idxOf? x = none := by simp [h]
    simp [h, hi]

end GivenClause
