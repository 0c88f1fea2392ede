import Mathlib.Data.Finset.Card
import Mathlib.Data.List.Perm.Basic
import GivenClause.Data.InsertionOrder
import GivenClause.Data.SwapRemove

/-! # Lists that lose and gain elements

Removal by moving the last element loses one copy of what was taken out and nothing else. Where no key is
listed twice, the order of a list of pairs does not matter for what is found under a key. The number of a
value in order of first insertion is fixed once the value is there: it is the number of different values that
were added before it. -/

namespace GivenClause

variable {α : Type} [DecidableEq α]

/-! ## Removal by moving the last element -/

/-- Taking out the first copy of an element loses that copy and nothing else. -/
theorem cons_swapRemoveFirst?_perm {xs ys : List α} {x : α} (h : swapRemoveFirst? xs x = some ys) :
    (x :: ys).Perm xs := by
  unfold swapRemoveFirst? at h
  split at h
  · next hx =>
    obtain ⟨last, hlast⟩ :=
      Option.isSome_iff_exists.1 (List.getLast?_isSome.2 (List.ne_nil_of_mem hx))
    simp only [swapRemove, hlast, Option.some.injEq] at h
    have hat : xs[xs.idxOf x]? = some x := by
      rw [List.getElem?_eq_getElem (List.idxOf_lt_length_of_mem hx), List.getElem_idxOf]
    -- overwriting position `i` by the last element trades `x` for a second copy of that element
    have htrade : (x :: xs.set (xs.idxOf x) last).Perm (last :: xs) := by
      have := List.getD_set_perm_cons xs (xs.idxOf x) last
      rwa [hat, Option.getD_some] at this
    have hend : (xs.set (xs.idxOf x) last).getLast? = some last := by
      rw [List.getLast?_eq_getElem?] at hlast ⊢
      rw [List.length_set, List.getElem?_set]
      split
      · rw [if_pos (List.idxOf_lt_length_of_mem hx)]
      · exact hlast
    have hsplit : xs.set (xs.idxOf x) last = ys ++ [last] := by
      rw [← h]
      exact (List.dropLast_append_getLast? last hend).symm
    rw [hsplit] at htrade
    have hfront : (last :: x :: ys).Perm (x :: (ys ++ [last])) := by
      simpa using @List.perm_append_comm _ [last] (x :: ys)
    exact (hfront.trans htrade).cons_inv
  · cases h

/-- An array loses one copy of the element that is taken out. -/
theorem cons_eraseBySwap?_perm {xs ys : Array α} {x : α} (h : eraseBySwap? xs x = some ys) :
    (x :: ys.toList).Perm xs.toList := by
  refine cons_swapRemoveFirst?_perm ?_
  rw [← toList_eraseBySwap?, h, Option.map_some]

/-- Nothing is taken out of an array exactly when the element is not there. -/
theorem eraseBySwap?_eq_none_iff {xs : Array α} {x : α} :
    eraseBySwap? xs x = none ↔ x ∉ xs.toList := by
  rw [← swapRemoveFirst?_eq_none_iff, ← toList_eraseBySwap?, Option.map_eq_none_iff]

/-! ## Lists of pairs -/

/-- What is found under a key is listed with it. -/
theorem mem_of_lookup_eq_some {β : Type} {entries : List (α × β)} {key : α} {value : β}
    (h : entries.lookup key = some value) : (key, value) ∈ entries := by
  obtain ⟨front, back, hsplit, -⟩ := List.lookup_eq_some_iff.1 h
  rw [hsplit]
  exact List.mem_append_right _ List.mem_cons_self

/-- Something is found under a key exactly when an entry has that key. -/
theorem isSome_lookup_iff {β : Type} {entries : List (α × β)} {key : α} :
    (entries.lookup key).isSome = true ↔ key ∈ entries.map (·.1) := by
  rw [List.lookup_isSome_iff, List.mem_map]
  constructor
  · rintro ⟨e, he, hkey⟩
    exact ⟨e, he, (beq_iff_eq.1 hkey).symm⟩
  · rintro ⟨e, he, rfl⟩
    exact ⟨e, he, beq_self_eq_true e.1⟩

theorem lookup_map_pair {β : Type} (keys : List α) (value : β) (key : α) :
    (keys.map fun k => (k, value)).lookup key = if key ∈ keys then some value else none := by
  induction keys with
  | nil => rfl
  | cons k keys ih =>
    rw [List.map_cons, List.lookup_cons, ih]
    by_cases hkey : key = k
    · simp [hkey]
    · simp [hkey, beq_false_of_ne hkey]

/-- Where no key is listed twice, every entry is found under its key. -/
theorem lookup_eq_some_iff_mem {β : Type} {entries : List (α × β)} (hnodup : (entries.map (·.1)).Nodup)
    {key : α} {value : β} : entries.lookup key = some value ↔ (key, value) ∈ entries := by
  refine ⟨mem_of_lookup_eq_some, fun hmem => ?_⟩
  obtain ⟨other, hother⟩ :=
    Option.isSome_iff_exists.1 (isSome_lookup_iff.2 (List.mem_map_of_mem hmem))
  have heq := List.inj_on_of_nodup_map hnodup (mem_of_lookup_eq_some hother) hmem rfl
  exact hother.trans (congrArg (fun e => some e.2) heq)

/-- Where no key is listed twice, the order of the entries does not matter. -/
theorem lookup_eq_of_perm {β : Type} {entries entries' : List (α × β)} (hperm : entries.Perm entries')
    (hnodup : (entries.map (·.1)).Nodup) (key : α) : entries.lookup key = entries'.lookup key := by
  have hnodup' := (hperm.map (·.1)).nodup_iff.1 hnodup
  refine Option.ext fun value => ?_
  rw [lookup_eq_some_iff_mem hnodup, lookup_eq_some_iff_mem hnodup', hperm.mem_iff]

/-! ## Order of first insertion -/

/-- Adding what is there already changes nothing. -/
theorem insertAll_eq_self {xs ys : List α} (h : ∀ y ∈ ys, y ∈ xs) :
    InsertionOrder.insertAll xs ys = xs := by
  induction ys with
  | nil => rfl
  | cons y ys ih =>
    rw [InsertionOrder.insertAll_cons, InsertionOrder.insertNew_of_mem (h y List.mem_cons_self)]
    exact ih fun z hz => h z (List.mem_cons_of_mem y hz)

/-- In which order values are added matters for their order only. -/
theorem insertAll_perm {xs xs' ys ys' : List α} (hnodup : xs.Nodup) (hxs : xs.Perm xs')
    (hys : ys.Perm ys') :
    (InsertionOrder.insertAll xs ys).Perm (InsertionOrder.insertAll xs' ys') := by
  rw [List.perm_ext_iff_of_nodup (InsertionOrder.nodup_insertAll ys hnodup)
    (InsertionOrder.nodup_insertAll ys' (hxs.nodup_iff.1 hnodup))]
  intro x
  rw [InsertionOrder.mem_insertAll, InsertionOrder.mem_insertAll, hxs.mem_iff, hys.mem_iff]

/-- Adding values without a property leaves the number of those that have it. -/
theorem countP_insertAll {p : α → Bool} (xs : List α) {ys : List α} (h : ∀ y ∈ ys, p y = false) :
    (InsertionOrder.insertAll xs ys).countP p = xs.countP p := by
  induction ys generalizing xs with
  | nil => rfl
  | cons y ys ih =>
    obtain ⟨hy, hys⟩ := List.forall_mem_cons.1 h
    rw [InsertionOrder.insertAll_cons, ih _ hys]
    by_cases hmem : y ∈ xs
    · rw [InsertionOrder.insertNew_of_mem hmem]
    · rw [InsertionOrder.insertNew_of_not_mem hmem, List.countP_append, List.countP_singleton, hy]
      rfl

/-- A value keeps its position when a list grows at its end. -/
theorem idxOf_eq_of_isPrefix {xs ys : List α} (h : xs <+: ys) {x : α} (hx : x ∈ xs) :
    ys.idxOf x = xs.idxOf x := by
  obtain ⟨zs, rfl⟩ := h
  exact List.idxOf_append_of_mem hx

/-- As many values are listed as there are different ones among those that were added. -/
theorem length_insertAll_nil (ys : List α) :
    (InsertionOrder.insertAll [] ys).length = ys.toFinset.card := by
  have hset : (InsertionOrder.insertAll [] ys).toFinset = ys.toFinset := by
    ext y
    simp
  rw [← hset, List.toFinset_card_of_nodup (InsertionOrder.nodup_insertAll ys List.nodup_nil)]

/-- The position of a value is the number of different values that were added before it. -/
theorem idxOf_insertAll_nil {before : List α} {y : α} (hy : y ∉ before) (after : List α) :
    (InsertionOrder.insertAll [] (before ++ y :: after)).idxOf y = before.toFinset.card := by
  have hnew : y ∉ InsertionOrder.insertAll [] before := by simpa using hy
  -- what is added later does not move `y`
  have hgrown : InsertionOrder.insertAll [] before ++ [y] <+:
      InsertionOrder.insertAll [] (before ++ y :: after) := by
    rw [InsertionOrder.insertAll_append, InsertionOrder.insertAll_cons,
      InsertionOrder.insertNew_of_not_mem hnew]
    exact InsertionOrder.isPrefix_insertAll _ _
  rw [idxOf_eq_of_isPrefix hgrown (by simp), List.idxOf_append_of_notMem hnew, List.idxOf_cons_self,
    Nat.add_zero, length_insertAll_nil]

end GivenClause
