import GivenClause.Fault

/-! # Sets of literal indices

A set of literal indices of one clause, held in 64 bits. The width is also the cap on the length of a
clause.

* `LiteralSet.contains` is the membership view; indices from 64 on are in no set;
* `LiteralSet.insert` and `LiteralSet.all` fail where the result does not fit;
* `LiteralSet.toList` lists the members in ascending order. -/

namespace GivenClause

/-- A set of literal indices below 64. -/
structure LiteralSet where
  /-- Bit `i` says whether `i` is a member. -/
  bits : BitVec 64
deriving DecidableEq, Repr, Hashable

namespace LiteralSet

/-- How many indices fit in a set. -/
def capacity : Nat := 64

/-- The set without members. -/
def empty : LiteralSet := ⟨0⟩

/-- Whether `i` is a member. -/
def contains (set : LiteralSet) (i : Nat) : Bool :=
  set.bits.getLsbD i

/-- The members in ascending order. -/
def toList (set : LiteralSet) : List Nat :=
  (List.range capacity).filter set.contains

/-- Whether there is no member. -/
def isEmpty (set : LiteralSet) : Bool :=
  set.bits == 0

/-- How many members there are. -/
def size (set : LiteralSet) : Nat :=
  set.toList.length

/-- The set `{0, …, len - 1}`, cut at the capacity. -/
def below (len : Nat) : LiteralSet :=
  ⟨BitVec.ofNat 64 (Nat.pow 2 (min len capacity) - 1)⟩

/-- The set `{0, …, len - 1}`, a fault when that is more than fits. -/
def all (len : Nat) : Except Fault LiteralSet :=
  if len ≤ capacity then .ok (below len) else .error .capacityExceeded

/-- Adds a member, a fault when the index does not fit. -/
def insert (set : LiteralSet) (i : Nat) : Except Fault LiteralSet :=
  if i < capacity then .ok ⟨set.bits ||| BitVec.twoPow 64 i⟩ else .error (.literalOutOfRange i)

/-- Adds indices one after the other; the first that does not fit is the fault. -/
def insertAll (set : LiteralSet) : List Nat → Except Fault LiteralSet
  | [] => .ok set
  | i :: is =>
    match set.insert i with
    | .ok set => set.insertAll is
    | .error fault => .error fault

/-- The set of the given indices. -/
def ofList (indices : List Nat) : Except Fault LiteralSet :=
  empty.insertAll indices

/-- Takes a member out; an index that does not fit is ignored. -/
def erase (set : LiteralSet) (i : Nat) : LiteralSet :=
  if i < capacity then ⟨set.bits &&& ~~~BitVec.twoPow 64 i⟩ else set

/-- The members of either set. -/
def union (set other : LiteralSet) : LiteralSet :=
  ⟨set.bits ||| other.bits⟩

/-- The members of both sets. -/
def inter (set other : LiteralSet) : LiteralSet :=
  ⟨set.bits &&& other.bits⟩

/-- Whether every member of `set` is a member of `other`. -/
def isSubset (set other : LiteralSet) : Bool :=
  set.bits &&& ~~~other.bits == 0

/-- Drops every index from `len` on. -/
def truncate (set : LiteralSet) (len : Nat) : LiteralSet :=
  set.inter (below len)

/-- The set written as its members in braces. -/
def text (set : LiteralSet) : String :=
  "\x7b" ++ String.intercalate ", " (set.toList.map toString) ++ "\x7d"

/-! ## Reading the operations through membership -/

@[simp] theorem contains_empty (i : Nat) : empty.contains i = false := by
  simp [contains, empty]

@[simp] theorem contains_union (set other : LiteralSet) (i : Nat) :
    (set.union other).contains i = (set.contains i || other.contains i) := by
  simp [contains, union]

@[simp] theorem contains_inter (set other : LiteralSet) (i : Nat) :
    (set.inter other).contains i = (set.contains i && other.contains i) := by
  simp [contains, inter]

/-- No set holds an index from the capacity on. -/
theorem contains_eq_false_of_le (set : LiteralSet) {i : Nat} (h : capacity ≤ i) :
    set.contains i = false :=
  set.bits.getLsbD_of_ge i h

theorem lt_capacity_of_contains {set : LiteralSet} {i : Nat} (h : set.contains i = true) :
    i < capacity := by
  by_cases hi : i < capacity
  · exact hi
  · rw [set.contains_eq_false_of_le (Nat.le_of_not_lt hi)] at h
    cases h

@[simp] theorem contains_erase (set : LiteralSet) (i j : Nat) :
    (set.erase i).contains j = (set.contains j && decide (j ≠ i)) := by
  rw [erase]
  split
  · by_cases hj : j < 64
    · by_cases h : j = i
      · subst h
        simp [contains, hj]
      · simp [contains, hj, h]
    · rw [contains_eq_false_of_le _ (Nat.le_of_not_lt hj),
        contains_eq_false_of_le set (Nat.le_of_not_lt hj), Bool.false_and]
  · rename_i hi
    by_cases h : j = i
    · subst h
      rw [contains_eq_false_of_le set (Nat.le_of_not_lt hi), Bool.false_and]
    · simp [h]

/-- A set is empty when it has no member. -/
theorem isEmpty_iff {set : LiteralSet} : set.isEmpty = true ↔ ∀ i, set.contains i = false := by
  rw [isEmpty, beq_iff_eq]
  constructor
  · intro h i
    simp [contains, h]
  · intro h
    refine BitVec.eq_of_getLsbD_eq fun i _ => ?_
    exact (h i).trans BitVec.getLsbD_zero.symm

/-- Membership in the list of members. -/
@[simp] theorem mem_toList (set : LiteralSet) (i : Nat) : i ∈ set.toList ↔ set.contains i = true := by
  simp only [toList, List.mem_filter, List.mem_range, and_iff_right_iff_imp]
  exact lt_capacity_of_contains

/-- A set is empty when it lists no member. -/
theorem isEmpty_iff_toList {set : LiteralSet} : set.isEmpty = true ↔ set.toList = [] := by
  simp [isEmpty_iff, List.eq_nil_iff_forall_not_mem]

@[simp] theorem contains_below (len i : Nat) :
    (below len).contains i = decide (i < min len capacity) := by
  by_cases hi : i < 64
  · rw [contains, below, BitVec.getLsbD_ofNat, decide_eq_true hi, Bool.true_and, Nat.pow_eq,
      Nat.testBit_two_pow_sub_one]
  · rw [contains_eq_false_of_le _ (Nat.le_of_not_lt hi), eq_comm, decide_eq_false_iff_not, capacity]
    omega

/-- Cutting a set keeps the members below the length. -/
@[simp] theorem contains_truncate (set : LiteralSet) (len i : Nat) :
    (set.truncate len).contains i = (set.contains i && decide (i < len)) := by
  rw [truncate, contains_inter, contains_below]
  by_cases hi : i < capacity
  · have hlt : i < min len capacity ↔ i < len := by
      rw [Nat.lt_min]
      exact and_iff_left hi
    rw [decide_eq_decide.2 hlt]
  · rw [contains_eq_false_of_le set (Nat.le_of_not_lt hi), Bool.false_and, Bool.false_and]

/-- Adding an index adds it and nothing else. -/
theorem contains_insert {set later : LiteralSet} {i : Nat} (h : set.insert i = .ok later) (j : Nat) :
    later.contains j = (set.contains j || decide (j = i)) := by
  rw [insert] at h
  split at h
  · next hi =>
    cases h
    rw [contains, contains, BitVec.getLsbD_or, BitVec.getLsbD_twoPow,
      decide_eq_true (p := i < 64) hi, Bool.true_and, decide_eq_decide.2 eq_comm]
  · cases h

/-- Indices that fit can be added. -/
theorem exists_insertAll {indices : List Nat} (h : ∀ i ∈ indices, i < capacity) (set : LiteralSet) :
    ∃ later, set.insertAll indices = .ok later := by
  induction indices generalizing set with
  | nil => exact ⟨set, rfl⟩
  | cons i indices ih =>
    obtain ⟨hi, hindices⟩ := List.forall_mem_cons.1 h
    rw [insertAll, insert, if_pos hi]
    exact ih hindices _

end LiteralSet

end GivenClause
