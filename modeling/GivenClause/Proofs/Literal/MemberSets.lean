import Mathlib.Data.Finset.Card
import GivenClause.Literal.IndexSet

/-! # Literal sets as finite sets

A literal set is read as the finite set of the indices it contains. Masks and shifts of its 64 bits are the
operations of finite sets, for every index and every length: an index that does not fit is refused or
ignored, and no bit moves out of the word.

* `LiteralSet.members` is the reading, and `LiteralSet.members_inj` says that it loses nothing;
* `LiteralSet.insert_eq_ok_iff`, `LiteralSet.all_eq_ok_iff` and `LiteralSet.insertAll_eq_ok_iff`, each with
  the condition for the fault, are the operations that can fail;
* `LiteralSet.size_eq_cpop`: the number of members is the number of bits that are set;
* `LiteralSet.operations_exact` collects all operations. -/

namespace GivenClause

namespace LiteralSet

/-- An index is a member when it fits and the mask of its bit leaves something of the word. -/
theorem contains_iff_mask {set : LiteralSet} {i : Nat} :
    set.contains i = true ↔ i < capacity ∧ set.bits &&& BitVec.twoPow 64 i ≠ 0 := by
  rw [BitVec.and_twoPow]
  constructor
  · intro h
    have hi := lt_capacity_of_contains h
    refine ⟨hi, fun hzero => ?_⟩
    have hbit := congrArg (BitVec.getLsbD · i) ((if_pos h).symm.trans hzero)
    simp [show i < 64 from hi] at hbit
  · rintro ⟨-, hmask⟩
    by_contra h
    exact hmask (if_neg h)

/-- The indices that a set contains. -/
def members (set : LiteralSet) : Finset Nat :=
  (Finset.range capacity).filter fun i => set.contains i = true

@[simp] theorem mem_members {set : LiteralSet} {i : Nat} : i ∈ set.members ↔ set.contains i = true := by
  rw [members, Finset.mem_filter, Finset.mem_range, and_iff_right_iff_imp]
  exact lt_capacity_of_contains

theorem members_subset (set : LiteralSet) : set.members ⊆ Finset.range capacity :=
  Finset.filter_subset _ _

/-- Sets with the same members have the same bits. -/
theorem members_inj {set other : LiteralSet} : set.members = other.members ↔ set = other := by
  refine ⟨fun h => ?_, congrArg members⟩
  have hbits : set.bits = other.bits := by
    refine BitVec.eq_of_getLsbD_eq fun i _ => ?_
    rw [Bool.eq_iff_iff]
    exact mem_members.symm.trans ((Finset.ext_iff.1 h i).trans mem_members)
  exact congrArg mk hbits

/-! ## Operations that always succeed -/

@[simp] theorem members_empty : empty.members = ∅ := by
  ext i
  simp

@[simp] theorem members_union (set other : LiteralSet) :
    (set.union other).members = set.members ∪ other.members := by
  ext i
  simp

@[simp] theorem members_inter (set other : LiteralSet) :
    (set.inter other).members = set.members ∩ other.members := by
  ext i
  simp

@[simp] theorem members_erase (set : LiteralSet) (i : Nat) :
    (set.erase i).members = set.members.erase i := by
  ext j
  simp [and_comm]

@[simp] theorem members_truncate (set : LiteralSet) (len : Nat) :
    (set.truncate len).members = set.members.filter (· < len) := by
  ext i
  simp

/-- Nothing of the first set remains outside the second exactly when it is a part of it. -/
theorem isSubset_iff {set other : LiteralSet} :
    set.isSubset other = true ↔ set.members ⊆ other.members := by
  -- what remains is a set of its own, and it is to be empty
  have hrest : set.isSubset other = (⟨set.bits &&& ~~~other.bits⟩ : LiteralSet).isEmpty := rfl
  rw [hrest, isEmpty_iff, Finset.subset_iff]
  refine forall_congr' fun i => ?_
  rw [mem_members, mem_members]
  by_cases hi : i < 64
  · simp [contains, hi]
  · simp [contains_eq_false_of_le _ (Nat.le_of_not_lt hi)]

theorem isEmpty_iff_members {set : LiteralSet} : set.isEmpty = true ↔ set.members = ∅ := by
  simp [isEmpty_iff, Finset.eq_empty_iff_forall_notMem]

/-! ## Listing and counting -/

/-- Members are listed in ascending order. -/
theorem pairwise_lt_toList (set : LiteralSet) : set.toList.Pairwise (· < ·) :=
  List.pairwise_lt_range.filter _

theorem toFinset_toList (set : LiteralSet) : set.toList.toFinset = set.members := by
  ext i
  simp

theorem size_eq_card (set : LiteralSet) : set.size = set.members.card := by
  rw [← toFinset_toList, List.toFinset_card_of_nodup (set.pairwise_lt_toList.imp Nat.ne_of_lt), size]

/-- Counting the lowest `n` bits that are set is counting the members below `n`. -/
theorem cpopNatRec_eq_length (set : LiteralSet) (n : Nat) :
    set.bits.cpopNatRec n 0 = ((List.range n).filter set.contains).length := by
  induction n with
  | zero => rfl
  | succ n ih =>
    rw [BitVec.cpopNatRec_succ, BitVec.cpopNatRec_add, ih, List.range_succ, List.filter_append,
      List.length_append, List.filter_singleton]
    show _ + (set.contains n).toNat = _
    cases set.contains n <;> rfl

/-- There are as many members as bits that are set. -/
theorem size_eq_cpop (set : LiteralSet) : set.size = set.bits.cpop.toNat := by
  rw [BitVec.toNat_cpop, cpopNatRec_eq_length]
  rfl

/-! ## Operations that can fail -/

/-- Adding an index gives a set exactly when the index fits, and the set is the one with that index. -/
theorem insert_eq_ok_iff {set later : LiteralSet} {i : Nat} :
    set.insert i = .ok later ↔ i < capacity ∧ later.members = set.members ∪ {i} := by
  have hmembers : ∀ made, set.insert i = .ok made → made.members = set.members ∪ {i} := by
    intro made hmade
    ext j
    simp [contains_insert hmade, or_comm]
  constructor
  · intro h
    refine ⟨?_, hmembers later h⟩
    by_contra hi
    rw [insert, if_neg hi] at h
    cases h
  · rintro ⟨hi, hlater⟩
    obtain ⟨made, hmade⟩ : ∃ made, set.insert i = .ok made := ⟨_, if_pos hi⟩
    rw [hmade, members_inj.1 (hlater.trans (hmembers made hmade).symm)]

theorem insert_eq_error_iff {set : LiteralSet} {i : Nat} {fault : Fault} :
    set.insert i = .error fault ↔ capacity ≤ i ∧ fault = .literalOutOfRange i := by
  rw [insert]
  split
  · next hi => simp [Nat.not_le_of_lt hi]
  · next hi => simp [Nat.le_of_not_lt hi, eq_comm]

@[simp] theorem members_below {len : Nat} (h : len ≤ capacity) : (below len).members = Finset.range len := by
  ext i
  rw [mem_members, contains_below, Nat.min_eq_left h, decide_eq_true_eq, Finset.mem_range]

/-- The first indices form a set exactly when they all fit. -/
theorem all_eq_ok_iff {len : Nat} {set : LiteralSet} :
    all len = .ok set ↔ len ≤ capacity ∧ set.members = Finset.range len := by
  rw [all]
  split
  · next h => rw [← members_below h, members_inj, Except.ok.injEq, and_iff_right h, eq_comm]
  · next h => simp [h]

theorem all_eq_error_iff {len : Nat} {fault : Fault} :
    all len = .error fault ↔ capacity < len ∧ fault = .capacityExceeded := by
  rw [all]
  split
  · next h => simp [Nat.not_lt_of_le h]
  · next h => simp [Nat.lt_of_not_le h, eq_comm]

/-- Cutting a set goes through a set of first indices that always exists. -/
theorem map_inter_all (set : LiteralSet) (len : Nat) :
    (all (min len capacity)).map set.inter = .ok (set.truncate len) := by
  have hcut : below (min len capacity) = below len := by
    rw [below, below, Nat.min_assoc, Nat.min_self]
  rw [all, if_pos (Nat.min_le_right len capacity), hcut]
  rfl

/-- Adding a list of indices succeeds exactly when all of them fit, and adds exactly these. -/
theorem insertAll_eq_ok_iff {indices : List Nat} {set later : LiteralSet} :
    set.insertAll indices = .ok later ↔
      (∀ i ∈ indices, i < capacity) ∧ later.members = set.members ∪ indices.toFinset := by
  induction indices generalizing set with
  | nil => simp [insertAll, members_inj, eq_comm]
  | cons i indices ih =>
    rw [insertAll, List.forall_mem_cons, List.toFinset_cons, Finset.insert_eq, ← Finset.union_assoc]
    cases hinsert : set.insert i with
    | ok next =>
      obtain ⟨hi, hnext⟩ := insert_eq_ok_iff.1 hinsert
      rw [← hnext, and_iff_right hi]
      exact ih
    | error fault =>
      have hi := (insert_eq_error_iff.1 hinsert).1
      simp [Nat.not_lt_of_le hi]

/-- Adding a list of indices stops at the first one that does not fit. -/
theorem insertAll_eq_error_iff {indices : List Nat} {set : LiteralSet} {fault : Fault} :
    set.insertAll indices = .error fault ↔
      ∃ i, indices.find? (fun i => decide (capacity ≤ i)) = some i ∧ fault = .literalOutOfRange i := by
  induction indices generalizing set with
  | nil => simp [insertAll]
  | cons i indices ih =>
    rw [insertAll]
    cases hinsert : set.insert i with
    | ok next =>
      have hi := (insert_eq_ok_iff.1 hinsert).1
      rw [List.find?_cons_of_neg (by simpa using hi)]
      exact ih
    | error fault' =>
      obtain ⟨hi, rfl⟩ := insert_eq_error_iff.1 hinsert
      rw [List.find?_cons_of_pos (by simpa using hi)]
      simp [eq_comm]

/-- The list of members gives the set back. -/
theorem ofList_toList (set : LiteralSet) : ofList set.toList = .ok set := by
  rw [ofList, insertAll_eq_ok_iff, toFinset_toList, members_empty, Finset.empty_union]
  exact ⟨fun i hi => lt_capacity_of_contains ((set.mem_toList i).1 hi), rfl⟩

/-- The finite sets of indices that fit are the sets of members. -/
theorem exists_members_iff {s : Finset Nat} :
    (∃ set : LiteralSet, set.members = s) ↔ s ⊆ Finset.range capacity := by
  constructor
  · rintro ⟨set, rfl⟩
    exact set.members_subset
  · intro h
    have hfit : ∀ i ∈ s.toList, i < capacity := fun i hi => Finset.mem_range.1 (h (Finset.mem_toList.1 hi))
    obtain ⟨set, hset⟩ := exists_insertAll hfit empty
    refine ⟨set, ?_⟩
    rw [(insertAll_eq_ok_iff.1 hset).2, members_empty, Finset.empty_union, Finset.toList_toFinset]

/-! ## All operations -/

/-- **A literal set is a faithful set of indices below 64.** Read through its members:

* membership is `contains`, a test of one bit; different bits are different sets, and every set of indices that
  fit is one;
* adding an index fails exactly when it does not fit; adding several stops at the first that does not fit, and
  otherwise gives the set of them;
* the set of the first indices exists exactly when they fit, and cutting a set never fails;
* taking an index out, union, intersection, inclusion, emptiness and the number of members are those of finite
  sets, and the number of members is the number of bits that are set;
* the members are listed in strictly ascending order, and their list gives the set back. -/
theorem operations_exact (set other : LiteralSet) (i len : Nat) (indices : List Nat) :
    ((i ∈ set.members ↔ set.contains i = true) ∧
      (set.contains i = true ↔ i < capacity ∧ set.bits &&& BitVec.twoPow 64 i ≠ 0) ∧
      (set.members = other.members ↔ set.bits = other.bits) ∧
      ∀ s : Finset Nat, (∃ set : LiteralSet, set.members = s) ↔ s ⊆ Finset.range capacity) ∧
    ((∀ later, set.insert i = .ok later ↔ i < capacity ∧ later.members = set.members ∪ {i}) ∧
      (∀ fault, set.insert i = .error fault ↔ capacity ≤ i ∧ fault = .literalOutOfRange i) ∧
      (∀ made, ofList indices = .ok made ↔
        (∀ j ∈ indices, j < capacity) ∧ made.members = indices.toFinset) ∧
      ∀ fault, ofList indices = .error fault ↔
        ∃ j, indices.find? (fun j => decide (capacity ≤ j)) = some j ∧ fault = .literalOutOfRange j) ∧
    ((∀ made, all len = .ok made ↔ len ≤ capacity ∧ made.members = Finset.range len) ∧
      (∀ fault, all len = .error fault ↔ capacity < len ∧ fault = .capacityExceeded) ∧
      (all (min len capacity)).map set.inter = .ok (set.truncate len) ∧
      (set.truncate len).members = set.members.filter (· < len)) ∧
    (empty.members = ∅ ∧
      (set.erase i).members = set.members.erase i ∧
      (set.union other).members = set.members ∪ other.members ∧
      (set.inter other).members = set.members ∩ other.members ∧
      (set.isSubset other = true ↔ set.members ⊆ other.members) ∧
      (set.isEmpty = true ↔ set.members = ∅) ∧
      set.size = set.members.card ∧ set.size = set.bits.cpop.toNat) ∧
    set.toList.Pairwise (· < ·) ∧ set.toList.toFinset = set.members ∧ ofList set.toList = .ok set := by
  refine ⟨⟨mem_members, contains_iff_mask, ?_, fun s => exists_members_iff⟩,
    ⟨fun later => insert_eq_ok_iff, fun fault => insert_eq_error_iff, fun made => ?_,
      fun fault => insertAll_eq_error_iff⟩,
    ⟨fun made => all_eq_ok_iff, fun fault => all_eq_error_iff, set.map_inter_all len,
      set.members_truncate len⟩,
    ⟨members_empty, set.members_erase i, set.members_union other, set.members_inter other, isSubset_iff,
      isEmpty_iff_members, set.size_eq_card, set.size_eq_cpop⟩,
    set.pairwise_lt_toList, set.toFinset_toList, set.ofList_toList⟩
  · rw [members_inj]
    exact ⟨congrArg bits, congrArg mk⟩
  · rw [ofList, insertAll_eq_ok_iff, members_empty, Finset.empty_union]

end LiteralSet

end GivenClause
