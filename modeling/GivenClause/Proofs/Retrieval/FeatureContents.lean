import Mathlib.Data.List.Nodup
import Mathlib.Order.Nat
import GivenClause.Proofs.Retrieval.TrieContents
import GivenClause.Retrieval.FeatureVector

/-! # Contents of feature indices

A feature index keeps its clauses twice: in a trie by counts and in a list by clause number. The two
agree after every operation (`FeatureIndex.Sound`), so either may be read for the other. -/

namespace GivenClause

/-- In a list of entries with different numbers, all entries but one have another number. -/
theorem perm_cons_filter_ne {β : Type} {entries : List (ClauseId × β)} {e : ClauseId × β}
    (hnodup : (entries.map (·.1)).Nodup) (he : e ∈ entries) :
    entries.Perm (e :: entries.filter fun d => d.1 ≠ e.1) := by
  induction entries with
  | nil => cases he
  | cons d entries ih =>
    rw [List.map_cons, List.nodup_cons] at hnodup
    rcases List.mem_cons.1 he with rfl | he
    · have hothers : ∀ d ∈ entries, decide (d.1 ≠ e.1) = true := by
        intro d hd
        have hne : d.1 ≠ e.1 := by
          rintro heq
          exact hnodup.1 (List.mem_map.2 ⟨d, hd, heq⟩)
        simpa using hne
      rw [List.filter_cons_of_neg (by simp), List.filter_eq_self.2 hothers]
    · have hne : d.1 ≠ e.1 := by
        intro heq
        exact hnodup.1 (List.mem_map.2 ⟨e, he, heq.symm⟩)
      rw [List.filter_cons_of_pos (by simpa using hne)]
      exact ((ih hnodup.2 he).cons d).trans (List.Perm.swap e d _)

/-- Sorting by numbers gives a list in ascending order. -/
theorem pairwise_mergeSort_number {α : Type} (number : α → Nat) (xs : List α) :
    (xs.mergeSort fun a b => number a ≤ number b).Pairwise fun a b => number a ≤ number b := by
  have hsorted : (xs.mergeSort fun a b => number a ≤ number b).Pairwise
      fun a b => decide (number a ≤ number b) = true := by
    refine List.pairwise_mergeSort (fun a b c hab hbc => ?_) (fun a b => ?_) xs
    · exact decide_eq_true ((of_decide_eq_true hab).trans (of_decide_eq_true hbc))
    · rw [Bool.or_eq_true, decide_eq_true_iff, decide_eq_true_iff]
      exact Nat.le_total (number a) (number b)
  exact hsorted.imp of_decide_eq_true

/-- Sorting by numbers does not depend on the order of what is sorted when no two members have the same
number. -/
theorem mergeSort_eq_of_perm {α : Type} (number : α → Nat) {xs ys : List α}
    (hnumber : ∀ a ∈ xs, ∀ b ∈ xs, number a = number b → a = b) (h : xs.Perm ys) :
    xs.mergeSort (fun a b => number a ≤ number b) = ys.mergeSort fun a b => number a ≤ number b := by
  refine List.Perm.eq_of_pairwise (fun a b ha hb hab hba => ?_) (pairwise_mergeSort_number number xs)
    (pairwise_mergeSort_number number ys)
    ((List.mergeSort_perm xs _).trans (h.trans (List.mergeSort_perm ys _).symm))
  rw [List.mem_mergeSort] at ha hb
  exact hnumber a ha b (h.mem_iff.2 hb) (Nat.le_antisymm hab hba)

namespace FeatureIndex

/-- The trie and the list of vectors hold the same clauses, each of them once. -/
structure Sound (index : FeatureIndex) : Prop where
  /-- A clause has one vector. -/
  nodup : (index.vectors.map (·.1)).Nodup
  /-- Branches are in order and none is empty. -/
  wellShaped : index.root.WellShaped
  /-- The trie stores every clause under its counts. -/
  contents : index.root.toList.Perm (index.vectors.map fun e => (e.2.counts, e.1))

theorem sound_empty : empty.Sound where
  nodup := List.nodup_nil
  wellShaped := Trie.wellShaped_empty
  contents := List.Perm.refl _

/-- A clause is in the index exactly when it has a vector. -/
theorem contains_iff {index : FeatureIndex} {id : ClauseId} :
    index.contains id = true ↔ id ∈ index.vectors.map (·.1) := by
  rw [contains, vector?, isSome_lookup_iff]

/-- The vector of a clause is the one that it is listed with. -/
theorem mem_of_vector? {index : FeatureIndex} {id : ClauseId} {vector : FeatureVector}
    (h : index.vector? id = some vector) : (id, vector) ∈ index.vectors :=
  mem_of_lookup_eq_some h

/-- A clause that is not in the index can be added. -/
theorem Sound.insertLiterals {index : FeatureIndex} (h : index.Sound) {id : ClauseId}
    (hid : id ∉ index.vectors.map (·.1)) (literals : List Literal) :
    (index.insertLiterals id literals).Sound where
  nodup := by
    rw [FeatureIndex.insertLiterals, List.map_append, List.map_singleton]
    have hnew := InsertionOrder.nodup_insertNew id h.nodup
    rwa [InsertionOrder.insertNew_of_not_mem hid] at hnew
  wellShaped := h.wellShaped.insert _ id
  contents := by
    rw [FeatureIndex.insertLiterals, List.map_append]
    refine (Trie.toList_insert_perm _ _ id).trans ?_
    exact (h.contents.cons _).trans (List.perm_append_singleton _ _).symm

/-- The list of vectors loses the clause and nothing else when one is taken out. -/
theorem vectors_erase (index : FeatureIndex) (id : ClauseId) :
    (index.erase id).1.vectors = index.vectors.filter fun e => e.1 ≠ id := by
  rw [erase]
  split
  · next hnone =>
    refine (List.filter_eq_self.2 ?_).symm
    intro e he
    have hne : id ≠ e.1 := by
      simpa using List.lookup_eq_none_iff.1 hnone e he
    simpa using hne.symm
  · dsimp only
    split <;> rfl

/-- Taking a clause out keeps trie and list in agreement. -/
theorem Sound.erase {index : FeatureIndex} (h : index.Sound) (id : ClauseId) :
    (index.erase id).1.Sound := by
  have hnodup : ((index.erase id).1.vectors.map (·.1)).Nodup := by
    rw [vectors_erase]
    exact h.nodup.sublist (List.filter_sublist.map _)
  rw [FeatureIndex.erase] at hnodup ⊢
  split
  · exact h
  · next vector hvector =>
    have hmem := mem_of_vector? hvector
    have hsplit := perm_cons_filter_ne h.nodup hmem
    have hstored : (vector.counts, id) ∈ index.root.toList :=
      h.contents.mem_iff.2 (List.mem_map.2 ⟨_, hmem, rfl⟩)
    obtain ⟨root, hroot⟩ := h.wellShaped.exists_erase? hstored
    dsimp only
    rw [hvector] at hnodup
    dsimp only at hnodup
    rw [hroot] at hnodup ⊢
    refine ⟨hnodup, h.wellShaped.erase? hroot, ?_⟩
    have hperm := (Trie.cons_toList_erase?_perm _ _ _ hroot).trans
      (h.contents.trans (hsplit.map fun e => (e.2.counts, e.1)))
    exact hperm.cons_inv

/-- The clauses by number are those of the index, sorted. -/
theorem map_fst_entries (index : FeatureIndex) :
    index.entries.map (·.1) = (index.vectors.map (·.1)).mergeSort := by
  rw [entries]
  exact List.map_mergeSort fun _ _ _ _ => rfl

/-- Equal vectors for the same clauses give equal entries. -/
theorem Sound.entries_eq {index index' : FeatureIndex} (h : index.Sound)
    (hperm : index.vectors.Perm index'.vectors) : index.entries = index'.entries := by
  -- a clause has one vector
  have hone : ∀ a ∈ index.vectors, ∀ b ∈ index.vectors, a.1 = b.1 → a = b :=
    fun a ha b hb => List.inj_on_of_nodup_map h.nodup ha hb
  exact mergeSort_eq_of_perm (·.1) hone hperm

end FeatureIndex

end GivenClause
