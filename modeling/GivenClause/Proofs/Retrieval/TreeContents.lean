import Mathlib.Data.List.Lex
import GivenClause.Proofs.Retrieval.TrieContents

/-! # Contents of discrimination trees

The keys of a discrimination tree are totally ordered, so everything that is known of tries holds of
it: `DiscriminationTree.contents` lists what is stored, every operation adds or takes out one entry, and
the sorted listing `DiscriminationTree.entries` depends on the contents alone. -/

namespace GivenClause

/-! ## The order on keys -/

namespace FlatKey

/-- Keys are ordered by their rank. -/
theorem lt_iff_rank_lt {a b : FlatKey} : a < b ↔ a.rank < b.rank := Iff.rfl

/-- Different keys have different ranks. -/
theorem rank_injective : Function.Injective rank := by
  intro a b h
  cases a <;> cases b <;> simp only [rank, List.cons.injEq, and_true, reduceCtorEq] at h <;>
    simp_all [UInt8.toNat_inj]

instance : IsStrictTotalOrder FlatKey (· < ·) where
  irrefl a := List.lt_irrefl a.rank
  trans a b c hab hbc := List.lt_trans hab hbc
  trichotomous a b hab hba := by
    rw [lt_iff_rank_lt] at hab hba
    exact rank_injective (le_antisymm (not_lt.1 hba) (not_lt.1 hab))

end FlatKey

/-! ## Contents -/

namespace DiscriminationTree

variable {α : Type}

/-- Every stored value with the key sequence of its term. -/
def contents (tree : DiscriminationTree α) : List (List FlatKey × α) :=
  tree.root.toList

/-- The shape and the counter are as the operations leave them. -/
structure Sound (tree : DiscriminationTree α) : Prop where
  /-- Branches are in order and none is empty. -/
  wellShaped : tree.root.WellShaped
  /-- The counter counts the contents. -/
  size_eq : tree.size = tree.contents.length

theorem sound_empty : (empty : DiscriminationTree α).Sound where
  wellShaped := Trie.wellShaped_empty
  size_eq := rfl

@[simp] theorem contents_empty : (empty : DiscriminationTree α).contents = [] := rfl

/-- Storing a value adds one entry. -/
theorem contents_insert_perm (tree : DiscriminationTree α) (t : Term) (value : α) :
    (tree.insert t value).contents.Perm ((t.storedKeys, value) :: tree.contents) :=
  Trie.toList_insert_perm tree.root t.storedKeys value

theorem Sound.insert {tree : DiscriminationTree α} (h : tree.Sound) (t : Term) (value : α) :
    (tree.insert t value).Sound where
  wellShaped := h.wellShaped.insert t.storedKeys value
  size_eq := by
    rw [(tree.contents_insert_perm t value).length_eq, List.length_cons, ← h.size_eq]
    rfl

section Erase

variable [DecidableEq α]

/-- Taking a value out succeeds with the trie that loses it. -/
theorem erase?_eq_some {tree tree' : DiscriminationTree α} {t : Term} {value : α}
    (h : tree.erase? t value = some tree') :
    tree.root.erase? t.storedKeys value = some tree'.root ∧ tree'.size = tree.size - 1 := by
  rw [erase?] at h
  split at h
  · next root hroot =>
    cases h
    exact ⟨hroot, rfl⟩
  · cases h

/-- Taking a value out takes out one copy and nothing else. -/
theorem cons_contents_erase?_perm {tree tree' : DiscriminationTree α} {t : Term} {value : α}
    (h : tree.erase? t value = some tree') :
    ((t.storedKeys, value) :: tree'.contents).Perm tree.contents :=
  Trie.cons_toList_erase?_perm tree.root t.storedKeys value (erase?_eq_some h).1

theorem Sound.erase? {tree tree' : DiscriminationTree α} (hsound : tree.Sound) {t : Term} {value : α}
    (h : tree.erase? t value = some tree') : tree'.Sound where
  wellShaped := hsound.wellShaped.erase? (erase?_eq_some h).1
  size_eq := by
    have hlength := (cons_contents_erase?_perm h).length_eq
    rw [List.length_cons, ← hsound.size_eq] at hlength
    rw [(erase?_eq_some h).2, ← hlength, Nat.add_sub_cancel]

/-- What is stored can be taken out. -/
theorem Sound.exists_erase? {tree : DiscriminationTree α} (hsound : tree.Sound) {t : Term} {value : α}
    (h : (t.storedKeys, value) ∈ tree.contents) : ∃ tree', tree.erase? t value = some tree' := by
  obtain ⟨root, hroot⟩ := hsound.wellShaped.exists_erase? h
  rw [DiscriminationTree.erase?, hroot]
  exact ⟨_, rfl⟩

end Erase

/-- The sorted listing lists the contents. -/
theorem entries_perm (le : α → α → Bool) (tree : DiscriminationTree α) :
    (tree.entries le).Perm tree.contents :=
  Trie.toListBy_perm _ (fun values => List.mergeSort_perm values le) tree.root

/-- Trees with the same contents have the same sorted listing. -/
theorem Sound.entries_eq {le : α → α → Bool}
    (htrans : ∀ u v w, le u v = true → le v w = true → le u w = true)
    (htotal : ∀ v w, (le v w || le w v) = true)
    (hanti : ∀ v w, le v w = true → le w v = true → v = w) {tree tree' : DiscriminationTree α}
    (h : tree.Sound) (h' : tree'.Sound) (hperm : tree.contents.Perm tree'.contents) :
    tree.entries le = tree'.entries le :=
  Trie.toListBy_mergeSort_eq htrans htotal hanti h.wellShaped h'.wellShaped hperm

end DiscriminationTree

end GivenClause
