import Mathlib.Data.Multiset.AddSub
import GivenClause.Proofs.Retrieval.TreeContents

/-! # Discrimination trees along runs

A run of insertions and removals keeps a multiset of entries, each a key sequence with a value. The tree
lists exactly that multiset, counts it, and answers removals from it. Its shape has no memory of the run:
up to the order of values at a node it is the tree that any insertion order of what is left builds.

* `Trie.Similar` compares tries up to the order of values, `Trie.WellShaped.similar` shows that contents
  determine the shape;
* `TreeCall` with `DiscriminationTree.performAll` and `TreeCall.storedAfter` are the runs of the tree and
  of the multiset;
* `DiscriminationTree.performAll_exact` ties them together. -/

namespace GivenClause

variable {κ α : Type}

/-! ## Tries up to the order of values -/

mutual

/-- The tries have the same nodes and every node has the same values up to their order. -/
def Trie.Similar : Trie κ α → Trie κ α → Prop
  | .node values branches, .node values' branches' =>
    values.toList.Perm values'.toList ∧ branches.Similar branches'

/-- The branches have the same keys in the same order and lead to similar tries. -/
def Branches.Similar : Branches κ α → Branches κ α → Prop
  | .nil, .nil => True
  | .cons key child rest, .cons key' child' rest' =>
    key = key' ∧ child.Similar child' ∧ rest.Similar rest'
  | .nil, .cons _ _ _ | .cons _ _ _, .nil => False

end

/-- Two parts that a test tells apart can be compared part by part. -/
theorem perm_parts_of_perm_append {β : Type} (p : β → Bool) {xs ys xs' ys' : List β}
    (h : (xs ++ ys).Perm (xs' ++ ys')) (hxs : ∀ x ∈ xs, p x = true) (hys : ∀ y ∈ ys, p y = false)
    (hxs' : ∀ x ∈ xs', p x = true) (hys' : ∀ y ∈ ys', p y = false) :
    xs.Perm xs' ∧ ys.Perm ys' := by
  have hkeep : ∀ {us vs : List β}, (∀ u ∈ us, p u = true) → (∀ v ∈ vs, p v = false) →
      (us ++ vs).filter p = us ∧ (us ++ vs).filter (fun b => !p b) = vs := by
    intro us vs hus hvs
    rw [List.filter_append, List.filter_append]
    constructor
    · rw [List.filter_eq_self.2 hus, List.filter_eq_nil_iff.2 (by simpa using hvs), List.append_nil]
    · rw [List.filter_eq_nil_iff.2 (by simpa using hus), List.filter_eq_self.2 (by simpa using hvs),
        List.nil_append]
  obtain ⟨hfirst, hsecond⟩ := hkeep hxs hys
  obtain ⟨hfirst', hsecond'⟩ := hkeep hxs' hys'
  have htrue := h.filter p
  have hfalse := h.filter fun b => !p b
  rw [hfirst, hfirst'] at htrue
  rw [hsecond, hsecond'] at hfalse
  exact ⟨htrue, hfalse⟩

section Similar

variable [LT κ]

/-- A well-shaped trie that is not empty stores something. -/
theorem Trie.WellShaped.exists_mem_toList :
    ∀ {trie : Trie κ α}, trie.WellShaped → trie.isEmpty = false → ∃ e, e ∈ trie.toList
  | .node values .nil, _, hfull => by
    rw [Trie.isEmpty, Array.isEmpty_eq_false_iff] at hfull
    obtain ⟨v, hv⟩ := List.exists_mem_of_ne_nil values.toList (mt Array.toList_eq_nil_iff.1 hfull)
    refine ⟨([], v), ?_⟩
    rw [Trie.toList_node]
    exact List.mem_append_left _ (List.mem_map_of_mem hv)
  | .node values (.cons key child rest), hshape, _ => by
    rw [Trie.WellShaped, Branches.WellShaped] at hshape
    obtain ⟨e, he⟩ := Trie.WellShaped.exists_mem_toList hshape.1 hshape.2.1
    refine ⟨(key :: e.1, e.2), ?_⟩
    rw [Trie.toList_node, Branches.toList_cons]
    exact List.mem_append_right _ (List.mem_append_left _ (List.mem_map_of_mem he))

/-- Well-shaped branches store something under their first key. -/
theorem Branches.WellShaped.exists_mem_toList {key : κ} {child : Trie κ α} {rest : Branches κ α}
    (hshape : (Branches.cons key child rest).WellShaped) :
    ∃ e ∈ (Branches.cons key child rest).toList, ∃ keys, e.1 = key :: keys := by
  rw [Branches.WellShaped] at hshape
  obtain ⟨e, he⟩ := hshape.1.exists_mem_toList hshape.2.1
  refine ⟨(key :: e.1, e.2), ?_, e.1, rfl⟩
  rw [Branches.toList_cons]
  exact List.mem_append_left _ (List.mem_map_of_mem he)

/-- What well-shaped branches store starts with their first key or with a greater one. -/
theorem Branches.WellShaped.eq_or_lt_of_mem_toList {key first : κ} {keys : List κ} {value : α}
    {child : Trie κ α} {rest : Branches κ α} (hshape : (Branches.cons first child rest).WellShaped)
    (h : (key :: keys, value) ∈ (Branches.cons first child rest).toList) :
    key = first ∨ first < key := by
  rw [Branches.WellShaped] at hshape
  obtain ⟨other, hother, keys', he⟩ := Branches.key_mem_of_mem_toListBy h
  cases he
  exact (List.mem_cons.1 hother).imp_right (hshape.2.2.1 key)

/-- Well-shaped branches with the same contents have the same first key. -/
theorem Branches.WellShaped.first_key_eq [Std.Asymm (α := κ) (· < ·)] {key key' : κ}
    {child child' : Trie κ α} {rest rest' : Branches κ α}
    (h : (Branches.cons key child rest).WellShaped)
    (h' : (Branches.cons key' child' rest').WellShaped)
    (hperm : (Branches.cons key child rest).toList.Perm (Branches.cons key' child' rest').toList) :
    key = key' := by
  obtain ⟨⟨_, value⟩, he, keys, rfl⟩ := h.exists_mem_toList
  obtain ⟨⟨_, value'⟩, he', keys', rfl⟩ := h'.exists_mem_toList
  rcases h'.eq_or_lt_of_mem_toList (hperm.subset he) with heq | hlt
  · exact heq
  · rcases h.eq_or_lt_of_mem_toList (hperm.symm.subset he') with heq' | hlt'
    · exact heq'.symm
    · exact absurd hlt' (Std.Asymm.asymm _ _ hlt)

mutual

/-- The contents of a well-shaped trie determine it up to the order of values. -/
theorem Trie.WellShaped.similar [DecidableEq κ] [Std.Asymm (α := κ) (· < ·)] :
    ∀ {trie trie' : Trie κ α}, trie.WellShaped → trie'.WellShaped →
      trie.toList.Perm trie'.toList → trie.Similar trie'
  | .node values branches, .node values' branches', h, h', hperm => by
    rw [Trie.toList_node, Trie.toList_node] at hperm
    have hbelow : ∀ {branches : Branches κ α}, ∀ e ∈ branches.toList, e.1.isEmpty = false := by
      intro branches e he
      obtain ⟨key, -, keys, hkeys⟩ := Branches.key_mem_of_mem_toListBy he
      rw [hkeys, List.isEmpty_cons]
    -- values of the node itself have the empty key sequence, and nothing below has it
    obtain ⟨hvalues, hbranches⟩ := perm_parts_of_perm_append (fun e => e.1.isEmpty) hperm
      (by simp) hbelow (by simp) hbelow
    rw [Trie.Similar]
    refine ⟨?_, Branches.WellShaped.similar h h' hbranches⟩
    simpa [Function.comp_def] using hvalues.map Prod.snd

/-- The contents of well-shaped branches determine them up to the order of values. -/
theorem Branches.WellShaped.similar [DecidableEq κ] [Std.Asymm (α := κ) (· < ·)] :
    ∀ {branches branches' : Branches κ α}, branches.WellShaped → branches'.WellShaped →
      branches.toList.Perm branches'.toList → branches.Similar branches'
  | .nil, .nil, _, _, _ => by
    rw [Branches.Similar]
    trivial
  | .nil, .cons key child rest, _, h', hperm => by
    obtain ⟨e, he, -⟩ := h'.exists_mem_toList
    exact absurd (hperm.symm.subset he) List.not_mem_nil
  | .cons key child rest, .nil, h, _, hperm => by
    obtain ⟨e, he, -⟩ := h.exists_mem_toList
    exact absurd (hperm.subset he) List.not_mem_nil
  | .cons key child rest, .cons key' child' rest', h, h', hperm => by
    obtain rfl := h.first_key_eq h' hperm
    rw [Branches.toList_cons, Branches.toList_cons] at hperm
    have hunder : ∀ {child : Trie κ α}, ∀ e ∈ child.toList.map (fun e => (key :: e.1, e.2)),
        decide (e.1.head? = some key) = true :=
      List.forall_mem_map.2 fun e _ => decide_eq_true rfl
    obtain ⟨hchild, hrest⟩ := perm_parts_of_perm_append (fun e => decide (e.1.head? = some key)) hperm
      hunder (fun e he => decide_eq_false (h.head?_ne_of_mem_rest he))
      hunder (fun e he => decide_eq_false (h'.head?_ne_of_mem_rest he))
    rw [Branches.WellShaped] at h h'
    rw [Branches.Similar]
    refine ⟨rfl, Trie.WellShaped.similar h.1 h'.1 ?_, Branches.WellShaped.similar h.2.2.2 h'.2.2.2 hrest⟩
    simpa [Function.comp_def] using hchild.map fun e => (e.1.tail, e.2)

end

end Similar

/-! ## Runs -/

/-- A call that changes what a discrimination tree stores. -/
inductive TreeCall (α : Type) where
  /-- Stores a value under a term. -/
  | insert (t : Term) (value : α)
  /-- Takes out one copy of a value stored under a term, if there is one. -/
  | remove (t : Term) (value : α)
deriving DecidableEq, Repr

namespace DiscriminationTree

/-- The entry that is stored for a term with a value. -/
def entryOf (e : Term × α) : List FlatKey × α :=
  (e.1.storedKeys, e.2)

/-- Stores values under terms one after the other. -/
def insertAll (tree : DiscriminationTree α) (pairs : List (Term × α)) : DiscriminationTree α :=
  pairs.foldl (fun tree e => tree.insert e.1 e.2) tree

variable [DecidableEq α]

/-- Takes out one copy of a value stored under a term, and tells whether there was one. -/
def remove (tree : DiscriminationTree α) (t : Term) (value : α) : DiscriminationTree α × Bool :=
  match tree.erase? t value with
  | some tree => (tree, true)
  | none => (tree, false)

/-- Makes a call. -/
def perform (tree : DiscriminationTree α) : TreeCall α → DiscriminationTree α
  | .insert t value => tree.insert t value
  | .remove t value => (tree.remove t value).1

/-- Makes calls one after the other. -/
def performAll (tree : DiscriminationTree α) (calls : List (TreeCall α)) : DiscriminationTree α :=
  calls.foldl perform tree

end DiscriminationTree

namespace TreeCall

variable [DecidableEq α]

/-- What a call makes of the stored entries. -/
def change (stored : Multiset (List FlatKey × α)) : TreeCall α → Multiset (List FlatKey × α)
  | .insert t value => (t.storedKeys, value) ::ₘ stored
  | .remove t value => stored.erase (t.storedKeys, value)

/-- The entries that calls leave stored: one for each insertion that no removal has undone. -/
def storedAfter (calls : List (TreeCall α)) : Multiset (List FlatKey × α) :=
  calls.foldl change 0

end TreeCall

namespace DiscriminationTree

/-- A tree stores exactly the entries of a multiset. -/
structure Stores (tree : DiscriminationTree α) (stored : Multiset (List FlatKey × α)) : Prop where
  /-- Shape and counter are as the operations leave them. -/
  sound : tree.Sound
  /-- The contents are the multiset. -/
  contents_eq : (tree.contents : Multiset (List FlatKey × α)) = stored

namespace Stores

variable {tree tree' : DiscriminationTree α} {stored : Multiset (List FlatKey × α)}

theorem empty : Stores (.empty : DiscriminationTree α) 0 :=
  ⟨sound_empty, rfl⟩

theorem insert (h : tree.Stores stored) (t : Term) (value : α) :
    (tree.insert t value).Stores ((t.storedKeys, value) ::ₘ stored) := by
  refine ⟨h.sound.insert t value, ?_⟩
  rw [← h.contents_eq, Multiset.cons_coe, Multiset.coe_eq_coe]
  exact tree.contents_insert_perm t value

theorem insertAll (h : tree.Stores stored) (pairs : List (Term × α)) :
    (tree.insertAll pairs).Stores
      ((pairs.map entryOf : Multiset (List FlatKey × α)) + stored) := by
  induction pairs generalizing tree stored with
  | nil => simpa [DiscriminationTree.insertAll] using h
  | cons e pairs ih =>
    have hrest := ih (h.insert e.1 e.2)
    rwa [Multiset.add_cons, ← Multiset.cons_add] at hrest

theorem mem_iff (h : tree.Stores stored) {e : List FlatKey × α} : e ∈ tree.contents ↔ e ∈ stored := by
  rw [← h.contents_eq, Multiset.mem_coe]

theorem size_eq (h : tree.Stores stored) : tree.size = Multiset.card stored := by
  rw [h.sound.size_eq, ← h.contents_eq, Multiset.coe_card]

theorem coe_entries (h : tree.Stores stored) (le : α → α → Bool) :
    (tree.entries le : Multiset (List FlatKey × α)) = stored := by
  rw [← h.contents_eq, Multiset.coe_eq_coe]
  exact tree.entries_perm le

/-- The listing is the only list of the stored entries that is in order. -/
theorem eq_entries_iff {le : α → α → Bool}
    (htrans : ∀ u v w, le u v = true → le v w = true → le u w = true)
    (htotal : ∀ v w, (le v w || le w v) = true)
    (hanti : ∀ v w, le v w = true → le w v = true → v = w) (h : tree.Stores stored)
    {listing : List (List FlatKey × α)} :
    listing = tree.entries le ↔
      (listing : Multiset (List FlatKey × α)) = stored ∧ listing.Pairwise (entryLE le) := by
  have hpairwise : (tree.entries le).Pairwise (entryLE le) :=
    h.sound.wellShaped.pairwise_toListBy htrans htotal
  constructor
  · rintro rfl
    exact ⟨h.coe_entries le, hpairwise⟩
  · rintro ⟨hstored, hlisting⟩
    refine List.Perm.eq_of_pairwise (fun a b _ _ => entryLE.antisymm hanti) hlisting hpairwise ?_
    rw [← Multiset.coe_eq_coe, hstored, h.coe_entries le]

/-- Trees that store the same entries are similar. -/
theorem similar (h : tree.Stores stored) (h' : tree'.Stores stored) :
    tree.root.Similar tree'.root := by
  refine h.sound.wellShaped.similar h'.sound.wellShaped ?_
  rw [← Multiset.coe_eq_coe]
  exact h.contents_eq.trans h'.contents_eq.symm

variable [DecidableEq α]

/-- A removal finds what is stored, and takes one copy of it out. -/
theorem remove_cases (h : tree.Stores stored) (t : Term) (value : α) :
    (t.storedKeys, value) ∈ stored ∧ (tree.remove t value).2 = true ∧
        (tree.remove t value).1.Stores (stored.erase (t.storedKeys, value)) ∨
      (t.storedKeys, value) ∉ stored ∧ tree.remove t value = (tree, false) := by
  rw [DiscriminationTree.remove]
  split
  · next tree' herase =>
    have hperm := cons_contents_erase?_perm herase
    have hmem : (t.storedKeys, value) ∈ stored := h.mem_iff.1 (hperm.subset List.mem_cons_self)
    refine Or.inl ⟨hmem, rfl, h.sound.erase? herase, ?_⟩
    rw [← Multiset.cons_inj_right (t.storedKeys, value), Multiset.cons_erase hmem, ← h.contents_eq,
      Multiset.cons_coe, Multiset.coe_eq_coe]
    exact hperm
  · next hnone =>
    refine Or.inr ⟨fun hmem => ?_, rfl⟩
    obtain ⟨tree', htree'⟩ := h.sound.exists_erase? (h.mem_iff.2 hmem)
    rw [hnone] at htree'
    cases htree'

/-- After a removal one copy less is stored, or as much as before when there was none. -/
theorem remove (h : tree.Stores stored) (t : Term) (value : α) :
    (tree.remove t value).1.Stores (stored.erase (t.storedKeys, value)) := by
  obtain ⟨-, -, hremoved⟩ | ⟨hmem, heq⟩ := h.remove_cases t value
  · exact hremoved
  · rwa [heq, Multiset.erase_of_notMem hmem]

theorem perform (h : tree.Stores stored) (call : TreeCall α) :
    (tree.perform call).Stores (call.change stored) := by
  cases call with
  | insert t value => exact h.insert t value
  | remove t value => exact h.remove t value

/-- Along a run the tree stores what the calls leave. -/
theorem performAll (h : tree.Stores stored) (calls : List (TreeCall α)) :
    (tree.performAll calls).Stores (calls.foldl TreeCall.change stored) := by
  induction calls generalizing tree stored with
  | nil => exact h
  | cons call calls ih => exact ih (h.perform call)

end Stores

/-- A discrimination tree is an exact multiset of entries in one shape. After any calls, whatever the terms
and values:

* the listing is the list of the entries that the calls leave, in order, and the counter is their number;
* a removal finds exactly what is among them; it then takes out one copy, and changes nothing otherwise;
* branches stand in order, none of them is empty, and any way to store the entries again, from nothing,
  gives the same tree up to the order of values at a node. -/
theorem performAll_exact [DecidableEq α] (le : α → α → Bool)
    (htrans : ∀ u v w, le u v = true → le v w = true → le u w = true)
    (htotal : ∀ v w, (le v w || le w v) = true)
    (hanti : ∀ v w, le v w = true → le w v = true → v = w) (calls : List (TreeCall α)) :
    (∀ listing, listing = (empty.performAll calls).entries le ↔
      (listing : Multiset (List FlatKey × α)) = TreeCall.storedAfter calls ∧
        listing.Pairwise (entryLE le)) ∧
    (empty.performAll calls).size = Multiset.card (TreeCall.storedAfter calls) ∧
    (∀ t value,
      (((empty.performAll calls).remove t value).2 = true ↔
        (t.storedKeys, value) ∈ TreeCall.storedAfter calls) ∧
      ((((empty.performAll calls).remove t value).1.entries le : Multiset (List FlatKey × α)) =
        (TreeCall.storedAfter calls).erase (t.storedKeys, value)) ∧
      ((t.storedKeys, value) ∉ TreeCall.storedAfter calls →
        ((empty.performAll calls).remove t value).1 = empty.performAll calls)) ∧
    (empty.performAll calls).root.WellShaped ∧
    ∀ pairs : List (Term × α),
      (pairs.map entryOf : Multiset (List FlatKey × α)) = TreeCall.storedAfter calls →
      (empty.performAll calls).root.Similar (empty.insertAll pairs).root := by
  have hstores : (empty.performAll calls).Stores (TreeCall.storedAfter calls) :=
    Stores.empty.performAll calls
  refine ⟨fun listing => hstores.eq_entries_iff htrans htotal hanti, hstores.size_eq,
    fun t value => ⟨?_, (hstores.remove t value).coe_entries le, ?_⟩, hstores.sound.wellShaped, ?_⟩
  · obtain ⟨hmem, htrue, -⟩ | ⟨hmem, heq⟩ := hstores.remove_cases t value
    · exact iff_of_true htrue hmem
    · rw [heq]
      exact iff_of_false Bool.false_ne_true hmem
  · intro hnot
    obtain ⟨hmem, -⟩ | ⟨-, heq⟩ := hstores.remove_cases t value
    · exact absurd hmem hnot
    · rw [heq]
  · intro pairs hpairs
    have hbuilt := Stores.empty.insertAll pairs
    rw [hpairs, Multiset.add_zero] at hbuilt
    exact hstores.similar hbuilt

/-- Stores `f(a)` twice, `a` and `f(x)`, and takes out one copy of `f(a)` and, under another name of its
variable, `f(x)`. -/
def pruningCalls : List (TreeCall Nat) :=
  [.insert (.app ⟨0, 1⟩ [.const 0]) 1, .insert (.app ⟨0, 1⟩ [.const 0]) 1, .insert (.const 0) 2,
    .insert (.app ⟨0, 1⟩ [.var 0]) 3, .remove (.app ⟨0, 1⟩ [.const 0]) 1,
    .remove (.app ⟨0, 1⟩ [.var 7]) 3]

/-- What is left is one copy of `f(a)` and `a`; the branch of `f(x)` is pruned, so that the tree is as if
the two were stored in a new one. -/
theorem performAll_exact_pruningCalls :
    (empty.performAll pruningCalls).entries (fun m n => decide (m ≤ n)) =
        [([.function 0 1, .constant 0], 1), ([.constant 0], 2)] ∧
      ((empty.performAll pruningCalls).remove (.app ⟨0, 1⟩ [.const 0]) 1).2 = true ∧
      ((empty.performAll pruningCalls).remove (.app ⟨0, 1⟩ [.var 0]) 3).1 =
        empty.performAll pruningCalls ∧
      (empty.performAll pruningCalls).root.Similar
        (empty.insertAll [(.const 0, 2), (.app ⟨0, 1⟩ [.const 0], 1)]).root := by
  obtain ⟨hlisting, -, hremove, -, hbuilt⟩ := performAll_exact
    (fun m n : Nat => decide (m ≤ n))
    (fun u v w huv hvw => by simp only [decide_eq_true_eq] at *; omega)
    (fun v w => by simp only [Bool.or_eq_true, decide_eq_true_eq]; omega)
    (fun v w hvw hwv => by simp only [decide_eq_true_eq] at *; omega) pruningCalls
  refine ⟨((hlisting _).2 ⟨by decide +kernel, ?_⟩).symm, (hremove _ _).1.2 (by decide +kernel),
    (hremove _ _).2.2 (by decide +kernel), hbuilt _ (by decide +kernel)⟩
  exact List.pairwise_pair.2 (Or.inl (by decide))

end DiscriminationTree

end GivenClause
