import Mathlib.Order.RelClasses
import GivenClause.Proofs.Data.Lists
import GivenClause.Retrieval.DiscriminationTree

/-! # Contents and shape of tries

What a trie stores is read off `Trie.toList`, up to the order of entries: insertion adds one entry,
removal takes one copy out and fails only when there is none. The branches of a trie that is built by
these operations stand in strictly ascending order and none of them is empty, so its sorted listing
depends on the stored entries alone.

* `Trie.toList_insert_perm`, `Trie.cons_toList_erase?_perm`, `Trie.WellShaped.erase?_eq_none_iff`: the
  operations on the contents;
* `Trie.WellShaped` is the shape, kept by `Trie.insert` and `Trie.erase?`;
* `Trie.toListBy_mergeSort_eq`: equal contents give equal sorted listings. -/

namespace GivenClause

variable {κ α : Type}

/-! ## Listings in different arrangements -/

/-- Every value stored under the branches with its key sequence, in the order of storage. -/
def Branches.toList (branches : Branches κ α) : List (List κ × α) :=
  branches.toListBy id

/-- The contents of a node: its own values, then what is stored below. -/
theorem Trie.toList_node (values : Array α) (branches : Branches κ α) :
    (Trie.node values branches).toList =
      values.toList.map (fun v => ([], v)) ++ branches.toList := rfl

/-- Branches without any branch store nothing. -/
@[simp] theorem Branches.toList_nil : (Branches.nil : Branches κ α).toList = [] := rfl

/-- The contents of branches: those of the first below its key, then those of the rest. -/
theorem Branches.toList_cons (key : κ) (child : Trie κ α) (rest : Branches κ α) :
    (Branches.cons key child rest).toList =
      child.toList.map (fun e => (key :: e.1, e.2)) ++ rest.toList := rfl

mutual

/-- Arranging the values of each node in another order does not change what is listed. -/
theorem Trie.toListBy_perm (arrange : List α → List α) (h : ∀ values, (arrange values).Perm values) :
    ∀ trie : Trie κ α, (trie.toListBy arrange).Perm trie.toList
  | .node values branches =>
    ((h values.toList).map _).append (Branches.toListBy_perm arrange h branches)

/-- Arranging the values below branches in another order does not change what is listed. -/
theorem Branches.toListBy_perm (arrange : List α → List α)
    (h : ∀ values, (arrange values).Perm values) :
    ∀ branches : Branches κ α, (branches.toListBy arrange).Perm branches.toList
  | .nil => List.Perm.refl _
  | .cons _ child rest =>
    ((Trie.toListBy_perm arrange h child).map _).append (Branches.toListBy_perm arrange h rest)

end

/-! ## Contents after insertion and removal -/

/-- A trie made for one value stores that value. -/
@[simp] theorem Trie.toList_single (keys : List κ) (value : α) :
    (Trie.single keys value).toList = [(keys, value)] := by
  induction keys with
  | nil => rfl
  | cons key keys ih =>
    rw [Trie.single, Trie.toList_node, Branches.toList_cons, ih]
    rfl

/-- A trie made for one value is not empty. -/
theorem Trie.isEmpty_single (keys : List κ) (value : α) :
    (Trie.single keys value).isEmpty = false := by
  cases keys <;> rfl

section Insert

variable [DecidableEq κ] [LT κ] [DecidableLT κ]

mutual

/-- Insertion adds one entry, also when the same entry is there already. -/
theorem Trie.toList_insert_perm :
    ∀ (trie : Trie κ α) (keys : List κ) (value : α),
      (trie.insert keys value).toList.Perm ((keys, value) :: trie.toList)
  | .node values branches, [], value => by
    rw [Trie.insert, Trie.toList_node, Trie.toList_node, Array.toList_push, List.map_append,
      List.append_assoc]
    exact List.perm_middle
  | .node values branches, key :: keys, value => by
    rw [Trie.insert, Trie.toList_node, Trie.toList_node]
    exact ((Branches.toList_insert_perm branches key keys value).append_left _).trans
      List.perm_middle

/-- Insertion below a branch adds one entry. -/
theorem Branches.toList_insert_perm :
    ∀ (branches : Branches κ α) (key : κ) (keys : List κ) (value : α),
      (branches.insert key keys value).toList.Perm ((key :: keys, value) :: branches.toList)
  | .nil, key, keys, value => by
    rw [Branches.insert, Branches.toList_cons, Trie.toList_single]
    exact List.Perm.refl _
  | .cons other child rest, key, keys, value => by
    rw [Branches.insert]
    split
    · next hkey =>
      subst hkey
      rw [Branches.toList_cons, Branches.toList_cons, ← List.cons_append]
      exact ((Trie.toList_insert_perm child keys value).map _).append_right _
    · split
      · rw [Branches.toList_cons, Trie.toList_single]
        exact List.Perm.refl _
      · rw [Branches.toList_cons, Branches.toList_cons]
        exact ((Branches.toList_insert_perm rest key keys value).append_left _).trans
          List.perm_middle

end

end Insert

/-- An empty trie stores nothing. -/
theorem Trie.toList_of_isEmpty {trie : Trie κ α} (h : trie.isEmpty = true) : trie.toList = [] := by
  cases trie with
  | node values branches =>
    cases branches with
    | nil =>
      have hvalues : values = #[] := Array.isEmpty_iff.1 h
      rw [hvalues]
      rfl
    | cons key child rest => cases h

section Erase

variable [DecidableEq κ] [DecidableEq α]

mutual

/-- Removal takes out one copy of the entry and nothing else. -/
theorem Trie.cons_toList_erase?_perm :
    ∀ (trie : Trie κ α) (keys : List κ) (value : α) {trie' : Trie κ α},
      trie.erase? keys value = some trie' → ((keys, value) :: trie'.toList).Perm trie.toList
  | .node values branches, [], value, trie', h => by
    rw [Trie.erase?] at h
    split at h
    · next values' hvalues =>
      cases h
      rw [Trie.toList_node, Trie.toList_node, ← List.cons_append]
      exact ((cons_eraseBySwap?_perm hvalues).map fun v => ([], v)).append_right _
    · cases h
  | .node values branches, key :: keys, value, trie', h => by
    rw [Trie.erase?] at h
    split at h
    · next branches' hbranches =>
      cases h
      rw [Trie.toList_node, Trie.toList_node]
      exact List.perm_middle.symm.trans
        ((Branches.cons_toList_erase?_perm branches key keys value hbranches).append_left _)
    · cases h

/-- Removal below a branch takes out one copy of the entry and nothing else. -/
theorem Branches.cons_toList_erase?_perm :
    ∀ (branches : Branches κ α) (key : κ) (keys : List κ) (value : α) {branches' : Branches κ α},
      branches.erase? key keys value = some branches' →
        ((key :: keys, value) :: branches'.toList).Perm branches.toList
  | .nil, key, keys, value, branches', h => by cases h
  | .cons other child rest, key, keys, value, branches', h => by
    rw [Branches.erase?] at h
    split at h
    · next hkey =>
      subst hkey
      split at h
      · next child' hchild =>
        have hperm := (Trie.cons_toList_erase?_perm child keys value hchild).map
          fun e => (key :: e.1, e.2)
        rw [Branches.toList_cons]
        split at h
        · next hempty =>
          -- the branch is pruned, and it stored nothing but the entry
          cases h
          rw [Trie.toList_of_isEmpty hempty] at hperm
          exact hperm.append_right _
        · cases h
          rw [Branches.toList_cons, ← List.cons_append]
          exact hperm.append_right _
      · cases h
    · split at h
      · next rest' hrest =>
        cases h
        rw [Branches.toList_cons, Branches.toList_cons]
        exact List.perm_middle.symm.trans
          ((Branches.cons_toList_erase?_perm rest key keys value hrest).append_left _)
      · cases h

end

end Erase

/-! ## Shape -/

/-- The keys of branches, in order. -/
def Branches.keys : Branches κ α → List κ
  | .nil => []
  | .cons key _ rest => key :: rest.keys

@[simp] theorem Branches.keys_nil : (Branches.nil : Branches κ α).keys = [] := rfl

@[simp] theorem Branches.keys_cons (key : κ) (child : Trie κ α) (rest : Branches κ α) :
    (Branches.cons key child rest).keys = key :: rest.keys := rfl

/-- What is listed below branches starts with one of their keys. -/
theorem Branches.key_mem_of_mem_toListBy {arrange : List α → List α} {branches : Branches κ α}
    {e : List κ × α} (h : e ∈ branches.toListBy arrange) :
    ∃ key ∈ branches.keys, ∃ keys, e.1 = key :: keys := by
  match branches, h with
  | .cons key child rest, h =>
    rw [Branches.toListBy, List.mem_append] at h
    rcases h with h | h
    · obtain ⟨below, -, rfl⟩ := List.mem_map.1 h
      exact ⟨key, List.mem_cons_self, below.1, rfl⟩
    · obtain ⟨other, hother, keys, he⟩ := Branches.key_mem_of_mem_toListBy h
      exact ⟨other, List.mem_cons_of_mem _ hother, keys, he⟩

section Shape

variable [LT κ]

mutual

/-- The branches of every node stand in strictly ascending order and none of them is empty. -/
def Trie.WellShaped : Trie κ α → Prop
  | .node _ branches => branches.WellShaped

/-- The branches stand in strictly ascending order, none of them is empty, and each is well
shaped. -/
def Branches.WellShaped : Branches κ α → Prop
  | .nil => True
  | .cons key child rest =>
    child.WellShaped ∧ child.isEmpty = false ∧ (∀ other ∈ rest.keys, key < other) ∧
      rest.WellShaped

end

/-- What stands to the right of the first branch does not start with its key. -/
theorem Branches.WellShaped.head?_ne_of_mem_rest [Std.Irrefl (α := κ) (· < ·)] {key : κ}
    {child : Trie κ α} {rest : Branches κ α} (hshape : (Branches.cons key child rest).WellShaped)
    {e : List κ × α} (h : e ∈ rest.toList) : e.1.head? ≠ some key := by
  rw [Branches.WellShaped] at hshape
  obtain ⟨other, hother, keys, he⟩ := Branches.key_mem_of_mem_toListBy h
  rw [he, List.head?_cons, ne_eq, Option.some.injEq]
  rintro rfl
  exact Std.Irrefl.irrefl other (hshape.2.2.1 other hother)

theorem Trie.wellShaped_empty : (Trie.empty : Trie κ α).WellShaped := by
  rw [Trie.empty, Trie.WellShaped, Branches.WellShaped]
  trivial

theorem Trie.wellShaped_single (keys : List κ) (value : α) :
    (Trie.single keys value).WellShaped := by
  induction keys with
  | nil =>
    rw [Trie.single, Trie.WellShaped, Branches.WellShaped]
    trivial
  | cons key keys ih =>
    rw [Trie.single, Trie.WellShaped, Branches.WellShaped, Branches.WellShaped]
    exact ⟨ih, Trie.isEmpty_single keys value, by simp, trivial⟩

end Shape

section InsertShape

variable [DecidableEq κ] [LT κ] [DecidableLT κ]

/-- Insertion below a branch opens no other branch. -/
theorem Branches.mem_keys_insert {branches : Branches κ α} {key other : κ} {keys : List κ}
    {value : α} (h : other ∈ (branches.insert key keys value).keys) :
    other = key ∨ other ∈ branches.keys := by
  match branches, h with
  | .nil, h =>
    rw [Branches.insert, Branches.keys_cons, Branches.keys_nil, List.mem_singleton] at h
    exact Or.inl h
  | .cons first child rest, h =>
    rw [Branches.insert] at h
    split at h
    · exact Or.inr h
    · split at h
      · rw [Branches.keys_cons, List.mem_cons] at h
        exact h
      · rw [Branches.keys_cons, List.mem_cons] at h
        rcases h with h | h
        · exact Or.inr (h ▸ List.mem_cons_self)
        · exact (Branches.mem_keys_insert h).imp_right (List.mem_cons_of_mem _)

/-- A trie that something was inserted into is not empty. -/
theorem Trie.isEmpty_insert (trie : Trie κ α) (keys : List κ) (value : α) :
    (trie.insert keys value).isEmpty = false := by
  match trie, keys with
  | .node values .nil, [] =>
    rw [Trie.insert, Trie.isEmpty, Array.isEmpty_push]
  | .node values (.cons key child rest), [] => rfl
  | .node values branches, key :: keys =>
    rw [Trie.insert]
    cases branches with
    | nil => rfl
    | cons other child rest =>
      rw [Branches.insert]
      split
      · rfl
      · split <;> rfl

mutual

/-- Insertion keeps the shape. -/
theorem Trie.WellShaped.insert [IsStrictTotalOrder κ (· < ·)] :
    ∀ {trie : Trie κ α} (keys : List κ) (value : α), trie.WellShaped →
      (trie.insert keys value).WellShaped
  | .node values branches, [], value, h => by
    rw [Trie.insert, Trie.WellShaped]
    exact h
  | .node values branches, key :: keys, value, h => by
    rw [Trie.insert, Trie.WellShaped]
    exact Branches.WellShaped.insert key keys value h

/-- Insertion below a branch keeps the shape. -/
theorem Branches.WellShaped.insert [IsStrictTotalOrder κ (· < ·)] :
    ∀ {branches : Branches κ α} (key : κ) (keys : List κ) (value : α), branches.WellShaped →
      (branches.insert key keys value).WellShaped
  | .nil, key, keys, value, _ => by
    rw [Branches.insert, Branches.WellShaped, Branches.WellShaped]
    exact ⟨Trie.wellShaped_single keys value, Trie.isEmpty_single keys value, by simp, trivial⟩
  | .cons other child rest, key, keys, value, h => by
    rw [Branches.insert]
    have hcons := h
    rw [Branches.WellShaped] at h
    obtain ⟨hchild, hfull, habove, hrest⟩ := h
    split
    · rw [Branches.WellShaped]
      exact ⟨hchild.insert keys value, Trie.isEmpty_insert child keys value, habove, hrest⟩
    · next hne =>
      split
      · next hlt =>
        -- the new branch comes first, so it is below all of them
        rw [Branches.WellShaped]
        refine ⟨Trie.wellShaped_single keys value, Trie.isEmpty_single keys value, ?_, hcons⟩
        intro third hthird
        rw [Branches.keys_cons, List.mem_cons] at hthird
        rcases hthird with rfl | hthird
        · exact hlt
        · exact IsTrans.trans _ _ _ hlt (habove third hthird)
      · next hnlt =>
        rw [Branches.WellShaped]
        refine ⟨hchild, hfull, ?_, hrest.insert key keys value⟩
        intro third hthird
        rcases Branches.mem_keys_insert hthird with rfl | hthird
        · exact (trichotomous_of (· < ·) third other).resolve_left hnlt |>.resolve_left hne
        · exact habove third hthird

end

end InsertShape

section EraseShape

variable [DecidableEq κ] [DecidableEq α]

/-- Removal below a branch opens no branch. -/
theorem Branches.mem_keys_of_erase? {branches branches' : Branches κ α} {key other : κ}
    {keys : List κ} {value : α} (h : branches.erase? key keys value = some branches')
    (hother : other ∈ branches'.keys) : other ∈ branches.keys := by
  match branches, h with
  | .cons first child rest, h =>
    rw [Branches.erase?] at h
    rw [Branches.keys_cons]
    split at h
    · split at h
      · split at h
        · cases h
          exact List.mem_cons_of_mem _ hother
        · cases h
          exact hother
      · cases h
    · split at h
      · next rest' hrest =>
        cases h
        rw [Branches.keys_cons, List.mem_cons] at hother
        rcases hother with rfl | hother
        · exact List.mem_cons_self
        · exact List.mem_cons_of_mem _ (Branches.mem_keys_of_erase? hrest hother)
      · cases h

variable [LT κ]

mutual

/-- Removal keeps the shape: a branch that becomes empty is pruned. -/
theorem Trie.WellShaped.erase? :
    ∀ {trie trie' : Trie κ α} {keys : List κ} {value : α}, trie.WellShaped →
      trie.erase? keys value = some trie' → trie'.WellShaped
  | .node values branches, trie', [], value, hshape, h => by
    rw [Trie.erase?] at h
    split at h
    · cases h
      rw [Trie.WellShaped]
      exact hshape
    · cases h
  | .node values branches, trie', key :: keys, value, hshape, h => by
    rw [Trie.erase?] at h
    split at h
    · next branches' hbranches =>
      cases h
      rw [Trie.WellShaped]
      exact Branches.WellShaped.erase? hshape hbranches
    · cases h

/-- Removal below a branch keeps the shape. -/
theorem Branches.WellShaped.erase? :
    ∀ {branches branches' : Branches κ α} {key : κ} {keys : List κ} {value : α},
      branches.WellShaped → branches.erase? key keys value = some branches' →
        branches'.WellShaped
  | .cons other child rest, branches', key, keys, value, hshape, h => by
    rw [Branches.WellShaped] at hshape
    obtain ⟨hchild, hfull, habove, hrest⟩ := hshape
    rw [Branches.erase?] at h
    split at h
    · split at h
      · next child' hchild' =>
        split at h
        · cases h
          exact hrest
        · next hempty =>
          cases h
          rw [Branches.WellShaped]
          exact ⟨hchild.erase? hchild', Bool.eq_false_iff.2 hempty, habove, hrest⟩
      · cases h
    · split at h
      · next rest' hrest' =>
        cases h
        rw [Branches.WellShaped]
        exact ⟨hchild, hfull,
          fun third hthird => habove third (Branches.mem_keys_of_erase? hrest' hthird),
          hrest.erase? hrest'⟩
      · cases h

end

mutual

/-- What a well-shaped trie stores can be taken out. -/
theorem Trie.WellShaped.exists_erase? [Std.Irrefl (α := κ) (· < ·)] :
    ∀ {trie : Trie κ α} {keys : List κ} {value : α}, trie.WellShaped →
      (keys, value) ∈ trie.toList → ∃ trie', trie.erase? keys value = some trie'
  | .node values branches, [], value, hshape, h => by
    rw [Trie.toList_node, List.mem_append] at h
    rcases h with h | h
    · rw [Trie.erase?]
      split
      · exact ⟨_, rfl⟩
      · next hnone =>
        obtain ⟨v, hv, he⟩ := List.mem_map.1 h
        cases he
        exact absurd hv (eraseBySwap?_eq_none_iff.1 hnone)
    · obtain ⟨key, -, keys, he⟩ := Branches.key_mem_of_mem_toListBy h
      cases he
  | .node values branches, key :: keys, value, hshape, h => by
    rw [Trie.toList_node, List.mem_append] at h
    rcases h with h | h
    · obtain ⟨v, -, he⟩ := List.mem_map.1 h
      cases he
    · obtain ⟨branches', hbranches⟩ := Branches.WellShaped.exists_erase? hshape h
      rw [Trie.erase?, hbranches]
      exact ⟨_, rfl⟩

/-- What well-shaped branches store can be taken out. -/
theorem Branches.WellShaped.exists_erase? [Std.Irrefl (α := κ) (· < ·)] :
    ∀ {branches : Branches κ α} {key : κ} {keys : List κ} {value : α}, branches.WellShaped →
      (key :: keys, value) ∈ branches.toList →
        ∃ branches', branches.erase? key keys value = some branches'
  | .cons other child rest, key, keys, value, hshape, h => by
    rw [Branches.WellShaped] at hshape
    obtain ⟨hchild, -, habove, hrest⟩ := hshape
    rw [Branches.toList_cons, List.mem_append] at h
    rw [Branches.erase?]
    rcases h with h | h
    · obtain ⟨below, hbelow, he⟩ := List.mem_map.1 h
      cases he
      obtain ⟨child', hchild'⟩ := hchild.exists_erase? hbelow
      rw [if_pos rfl, hchild']
      exact ⟨_, (apply_ite some _ _ _).symm⟩
    · -- the key stands further right, and keys to the right are greater
      obtain ⟨third, hthird, keys', he⟩ := Branches.key_mem_of_mem_toListBy h
      cases he
      have hne : key ≠ other := by
        rintro rfl
        exact Std.Irrefl.irrefl key (habove key hthird)
      obtain ⟨rest', hrest'⟩ := hrest.exists_erase? h
      rw [if_neg hne, hrest']
      exact ⟨_, rfl⟩

end

/-- Removal from a well-shaped trie fails exactly when the entry is not there. -/
theorem Trie.WellShaped.erase?_eq_none_iff [Std.Irrefl (α := κ) (· < ·)] {trie : Trie κ α}
    {keys : List κ} {value : α} (hshape : trie.WellShaped) :
    trie.erase? keys value = none ↔ (keys, value) ∉ trie.toList := by
  constructor
  · intro hnone hmem
    obtain ⟨trie', htrie'⟩ := hshape.exists_erase? hmem
    rw [hnone] at htrie'
    cases htrie'
  · intro hmem
    cases h : trie.erase? keys value with
    | none => rfl
    | some trie' =>
      have hperm := Trie.cons_toList_erase?_perm trie keys value h
      exact absurd (hperm.subset List.mem_cons_self) hmem

end EraseShape

/-! ## Sorted listings -/

section Sorted

variable [LT κ]

/-- The order of a sorted listing: by key sequence, and by value under one key sequence. -/
def entryLE (le : α → α → Bool) (a b : List κ × α) : Prop :=
  a.1 < b.1 ∨ (a.1 = b.1 ∧ le a.2 b.2 = true)

/-- Putting the same key in front of two key sequences keeps their order. -/
theorem entryLE.cons {le : α → α → Bool} {a b : List κ × α} (key : κ) (h : entryLE le a b) :
    entryLE le (key :: a.1, a.2) (key :: b.1, b.2) := by
  rcases h with h | ⟨h, hle⟩
  · exact Or.inl (List.cons_lt_cons_iff.2 (Or.inr ⟨rfl, h⟩))
  · exact Or.inr ⟨congrArg (List.cons key) h, hle⟩

/-- A total order on values gives a total order on entries, so no two different entries precede each
other. -/
theorem entryLE.antisymm [Std.Asymm (α := κ) (· < ·)] {le : α → α → Bool}
    (hanti : ∀ v w, le v w = true → le w v = true → v = w) {a b : List κ × α}
    (hab : entryLE le a b) (hba : entryLE le b a) : a = b := by
  rcases hab with hab | ⟨hkeys, hab⟩
  · rcases hba with hba | ⟨hkeys, -⟩
    · exact absurd hba (List.lt_asymm hab)
    · rw [hkeys] at hab
      exact absurd hab (List.lt_asymm hab)
  · rcases hba with hba | ⟨-, hba⟩
    · rw [hkeys] at hba
      exact absurd hba (List.lt_asymm hba)
    · exact Prod.ext hkeys (hanti _ _ hab hba)

mutual

/-- The sorted listing of a well-shaped trie is in order. -/
theorem Trie.WellShaped.pairwise_toListBy {le : α → α → Bool}
    (htrans : ∀ u v w, le u v = true → le v w = true → le u w = true)
    (htotal : ∀ v w, (le v w || le w v) = true) :
    ∀ {trie : Trie κ α}, trie.WellShaped →
      (trie.toListBy fun values => values.mergeSort le).Pairwise (entryLE le)
  | .node values branches, hshape => by
    rw [Trie.toListBy, List.pairwise_append]
    refine ⟨?_, Branches.WellShaped.pairwise_toListBy htrans htotal hshape, ?_⟩
    · refine (List.pairwise_mergeSort htrans htotal values.toList).map _ ?_
      intro v w hle
      exact Or.inr ⟨rfl, hle⟩
    · -- values of the node itself have the empty key sequence, which comes first
      intro a ha b hb
      obtain ⟨v, -, rfl⟩ := List.mem_map.1 ha
      obtain ⟨key, -, keys, hkeys⟩ := Branches.key_mem_of_mem_toListBy hb
      refine Or.inl ?_
      rw [hkeys]
      exact List.nil_lt_cons key keys

/-- The sorted listing of well-shaped branches is in order. -/
theorem Branches.WellShaped.pairwise_toListBy {le : α → α → Bool}
    (htrans : ∀ u v w, le u v = true → le v w = true → le u w = true)
    (htotal : ∀ v w, (le v w || le w v) = true) :
    ∀ {branches : Branches κ α}, branches.WellShaped →
      (branches.toListBy fun values => values.mergeSort le).Pairwise (entryLE le)
  | .nil, _ => List.Pairwise.nil
  | .cons key child rest, hshape => by
    rw [Branches.WellShaped] at hshape
    obtain ⟨hchild, -, habove, hrest⟩ := hshape
    rw [Branches.toListBy, List.pairwise_append]
    refine ⟨?_, hrest.pairwise_toListBy htrans htotal, ?_⟩
    · exact (hchild.pairwise_toListBy htrans htotal).map _ fun a b h => h.cons key
    · intro a ha b hb
      obtain ⟨below, -, rfl⟩ := List.mem_map.1 ha
      obtain ⟨other, hother, keys, hkeys⟩ := Branches.key_mem_of_mem_toListBy hb
      refine Or.inl ?_
      rw [hkeys]
      exact List.cons_lt_cons_iff.2 (Or.inl (habove other hother))

end

/-- Two well-shaped tries with the same contents have the same sorted listing. -/
theorem Trie.toListBy_mergeSort_eq [Std.Asymm (α := κ) (· < ·)] {le : α → α → Bool}
    (htrans : ∀ u v w, le u v = true → le v w = true → le u w = true)
    (htotal : ∀ v w, (le v w || le w v) = true)
    (hanti : ∀ v w, le v w = true → le w v = true → v = w) {trie trie' : Trie κ α}
    (hshape : trie.WellShaped) (hshape' : trie'.WellShaped)
    (hperm : trie.toList.Perm trie'.toList) :
    (trie.toListBy fun values => values.mergeSort le) =
      trie'.toListBy fun values => values.mergeSort le := by
  have harrange : ∀ values : List α, (values.mergeSort le).Perm values := fun values =>
    List.mergeSort_perm values le
  refine List.Perm.eq_of_pairwise (fun a b _ _ => entryLE.antisymm hanti)
    (hshape.pairwise_toListBy htrans htotal) (hshape'.pairwise_toListBy htrans htotal) ?_
  exact (Trie.toListBy_perm _ harrange trie).trans
    (hperm.trans (Trie.toListBy_perm _ harrange trie').symm)

end Sorted

end GivenClause
