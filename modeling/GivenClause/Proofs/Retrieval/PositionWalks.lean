import GivenClause.Proofs.Retrieval.KeyDecoding

/-! # Walks by positions

A search may be carried out on positions in the key sequence of the query: a call goes on at a node with the
key at some position, or it passes over stored terms and counts how many remain. Stored arities decide how far
a term of the query reaches and how many stored terms remain, and an arity may be any number, whatever the term
looks like. Still no walk reads a key past the end or counts below zero, and every walk ends: a term of the query
never reaches further than the keys go, and each call leads to a lower node or prepares one that does.

* `MeasureRun` is the recursion that measures a term of a key sequence, `measureRun_iff` says that it ends, with
  `subtermSize`;
* `WalkCall.step` is one call of a walk, with the faults that it might have, and `WalkRun` a whole walk;
* `WalkCall.step_safe`: a call at a position inside of the query has no fault and makes such calls only;
* `WalkCall.returns`: it ends with what a search finds;
* `DiscriminationTree.walks_safe` is the result for the three searches of a tree. -/

namespace GivenClause

/-! ## Measuring a term -/

mutual

/-- A run of the recursion that counts the keys of the term at a position. -/
inductive MeasureRun (keys : List FlatKey) : (position size : Nat) → Prop where
  /-- Past the end there is nothing to count. -/
  | past {position : Nat} (h : keys.length ≤ position) : MeasureRun keys position 0
  /-- A constant or a variable is one key. -/
  | single {position : Nat} {key : FlatKey} (h : keys[position]? = some key)
      (hkey : ∀ id arity, key ≠ .function id arity) : MeasureRun keys position 1
  /-- A function symbol is followed by as many arguments as its arity says. -/
  | function {position id size : Nat} {arity : UInt8}
      (h : keys[position]? = some (.function id arity))
      (hargs : ArgumentsRun keys position arity.toNat 1 size) : MeasureRun keys position size

/-- A run of the loop that counts the keys of `count` more arguments after `size` keys from a position on. -/
inductive ArgumentsRun (keys : List FlatKey) : (position count size total : Nat) → Prop where
  /-- No argument is left. -/
  | done (position size : Nat) : ArgumentsRun keys position 0 size size
  /-- The next argument is counted, then the others behind it. -/
  | next {position count size argument total : Nat}
      (h : MeasureRun keys (position + size) argument)
      (hrest : ArgumentsRun keys position count (size + argument) total) :
      ArgumentsRun keys position (count + 1) size total

end

/-- Only function symbols ask for arguments. -/
theorem FlatKey.arity_eq_zero {key : FlatKey} (h : ∀ id arity, key ≠ .function id arity) :
    key.arity = 0 := by
  cases key with
  | function id arity => exact absurd rfl (h id arity)
  | _ => rfl

/-- Terms one after the other take up the keys of the first ones and then those of the others. -/
theorem termsLength_add (count more : Nat) (keys : List FlatKey) :
    termsLength (count + more) keys =
      termsLength count keys + termsLength more (keys.drop (termsLength count keys)) := by
  induction keys generalizing count with
  | nil => cases count <;> cases more <;> simp [termsLength]
  | cons key keys ih =>
    cases count with
    | zero => simp [termsLength]
    | succ count =>
      have hswap : count + more + key.arity = count + key.arity + more := by omega
      rw [Nat.add_right_comm, termsLength, termsLength, hswap, ih, List.drop_succ_cons]
      omega

section Measure

variable {keys : List FlatKey} {position : Nat}

theorem subtermSize_of_length_le (h : keys.length ≤ position) : subtermSize keys position = 0 := by
  rw [subtermSize, List.drop_of_length_le h, termsLength]

/-- The term at a position is its first key and the arguments that this key asks for. -/
theorem subtermSize_of_getElem? {key : FlatKey} (h : keys[position]? = some key) :
    subtermSize keys position = 1 + termsLength key.arity (keys.drop (position + 1)) := by
  obtain ⟨hlt, hkey⟩ := List.getElem?_eq_some_iff.1 h
  rw [subtermSize, List.drop_eq_getElem_cons hlt, hkey, termsLength, Nat.zero_add, Nat.add_comm]

/-- A term does not reach further than the keys go. -/
theorem add_subtermSize_le (h : position ≤ keys.length) :
    position + subtermSize keys position ≤ keys.length := by
  have hle := termsLength_le_length 1 (keys.drop position)
  rw [List.length_drop] at hle
  rw [subtermSize]
  omega

/-- One more argument is counted by itself. -/
theorem termsLength_succ_drop (count : Nat) :
    termsLength (count + 1) (keys.drop position) = subtermSize keys position +
      termsLength count (keys.drop (position + subtermSize keys position)) := by
  rw [Nat.add_comm count, termsLength_add, List.drop_drop]
  rfl

mutual

/-- A run that ends has counted the keys of the term. -/
theorem MeasureRun.eq_subtermSize : ∀ {position size : Nat}, MeasureRun keys position size →
    size = subtermSize keys position
  | _, _, .past h => (subtermSize_of_length_le h).symm
  | _, _, .single h hkey => by
    rw [subtermSize_of_getElem? h, FlatKey.arity_eq_zero hkey, termsLength]
  | _, _, .function h hargs => by
    rw [subtermSize_of_getElem? h]
    exact hargs.eq_add_termsLength

/-- A loop that ends has counted the keys of the arguments. -/
theorem ArgumentsRun.eq_add_termsLength : ∀ {position count size total : Nat},
    ArgumentsRun keys position count size total →
      total = size + termsLength count (keys.drop (position + size))
  | _, _, _, _, .done _ _ => by rw [termsLength, Nat.add_zero]
  | _, _, _, _, .next h hrest => by
    rw [termsLength_succ_drop, ← h.eq_subtermSize, hrest.eq_add_termsLength, Nat.add_assoc, Nat.add_assoc]

end

/-- The loop ends if measuring the terms at later positions does. -/
theorem argumentsRun_of_later
    (hlater : ∀ later, position < later → MeasureRun keys later (subtermSize keys later))
    (count : Nat) {size : Nat} (hsize : 0 < size) :
    ArgumentsRun keys position count size (size + termsLength count (keys.drop (position + size))) := by
  induction count generalizing size with
  | zero =>
    rw [termsLength]
    exact .done position size
  | succ count ih =>
    refine .next (hlater _ (by omega)) ?_
    rw [termsLength_succ_drop, ← Nat.add_assoc, Nat.add_assoc position]
    exact ih (by omega)

/-- Measuring a term ends at every position, whatever the arities are. -/
theorem exists_measureRun (keys : List FlatKey) (position : Nat) :
    MeasureRun keys position (subtermSize keys position) := by
  -- arguments start further right, so fewer and fewer keys are left
  induction hleft : keys.length - position using Nat.strongRecOn generalizing position with
  | ind left ih =>
    rcases Nat.lt_or_ge position keys.length with hlt | hge
    · have hkey := List.getElem?_eq_getElem hlt
      rw [subtermSize_of_getElem? hkey]
      by_cases hfunction : ∃ id arity, keys[position] = .function id arity
      · obtain ⟨id, arity, hfirst⟩ := hfunction
        rw [hfirst] at hkey ⊢
        refine .function hkey (argumentsRun_of_later (fun later hlater => ?_) _ Nat.one_pos)
        exact ih _ (by omega) later rfl
      · have hsingle : ∀ id arity, keys[position] ≠ .function id arity := by simpa using hfunction
        rw [FlatKey.arity_eq_zero hsingle, termsLength]
        exact .single hkey hsingle
    · rw [subtermSize_of_length_le hge]
      exact .past hge

/-- Measuring a term ends at every position with one result. -/
theorem measureRun_iff {size : Nat} :
    MeasureRun keys position size ↔ size = subtermSize keys position := by
  refine ⟨MeasureRun.eq_subtermSize, ?_⟩
  rintro rfl
  exact exists_measureRun keys position

end Measure

/-! ## Nodes and their children -/

section Nodes

variable {κ α : Type}

/-- The branches of a node as a list. -/
def Branches.children : Branches κ α → List (κ × Trie κ α)
  | .nil => []
  | .cons key child rest => (key, child) :: rest.children

/-- The children of a node with their keys. -/
def Trie.children : Trie κ α → List (κ × Trie κ α)
  | .node _ branches => branches.children

/-- The values stored at a node. -/
def Trie.values : Trie κ α → List α
  | .node values _ => values.toList

mutual

/-- How many keys the longest key sequence below a node has. -/
def Trie.height : Trie κ α → Nat
  | .node _ branches => branches.height

/-- The height of a node with the given branches. -/
def Branches.height : Branches κ α → Nat
  | .nil => 0
  | .cons _ child rest => max (child.height + 1) rest.height

end

theorem Branches.height_lt_of_mem :
    ∀ {branches : Branches κ α} {e : κ × Trie κ α}, e ∈ branches.children → e.2.height < branches.height
  | .nil, _, h => absurd h List.not_mem_nil
  | .cons key child rest, e, h => by
    rw [Branches.height]
    rcases List.mem_cons.1 h with rfl | h
    · exact Nat.lt_of_lt_of_le child.height.lt_succ_self (Nat.le_max_left _ _)
    · exact Nat.lt_of_lt_of_le (Branches.height_lt_of_mem h) (Nat.le_max_right _ _)

theorem Trie.height_lt_of_mem {node : Trie κ α} {e : κ × Trie κ α} (h : e ∈ node.children) :
    e.2.height < node.height := by
  cases node with
  | node values branches =>
    rw [Trie.height]
    exact Branches.height_lt_of_mem h

end Nodes

variable {α : Type}

/-- A search below the branch `key` goes on at the child with that key. -/
theorem Branches.searchUnder_eq_flatMap (m : Matching) (key : FlatKey) (keys : List FlatKey) :
    ∀ branches : Branches FlatKey α, branches.searchUnder m key keys =
      (branches.children.lookup key).toList.flatMap fun child => child.search m 0 keys
  | .nil => rfl
  | .cons other child rest => by
    rw [Branches.searchUnder, Branches.children, List.lookup_cons, Branches.searchUnder_eq_flatMap m key keys rest]
    by_cases h : other = key
    · rw [if_pos h, beq_iff_eq.2 h.symm, Option.toList_some, List.flatMap_singleton]
    · rw [if_neg h, beq_eq_false_iff_ne.2 (Ne.symm h)]

/-- A search below all branches goes on at every child. -/
theorem Branches.searchAll_eq_flatMap (m : Matching) (pending : Nat) (keys : List FlatKey) :
    ∀ branches : Branches FlatKey α, branches.searchAll m pending keys =
      branches.children.flatMap fun e => e.2.search m (pending + e.1.arity) keys
  | .nil => rfl
  | .cons other child rest => by
    rw [Branches.searchAll, Branches.children, List.flatMap_cons, Branches.searchAll_eq_flatMap m pending keys rest]

/-! ## Calls -/

/-- What would stop a walk. -/
inductive WalkFault where
  /-- A key past the end of the query was asked for. -/
  | pastEnd (position : Nat)
  /-- The count of stored terms was to go below zero. -/
  | countUnderflow
deriving DecidableEq, Repr

/-- A call that a walk makes. -/
inductive WalkCall (α : Type) where
  /-- Goes on at a node with the key of the query at a position. -/
  | visit (node : Trie FlatKey α) (position : Nat)
  /-- Passes over `remaining` stored terms below a node and then goes on at a position. -/
  | skip (node : Trie FlatKey α) (remaining position : Nat)

/-- The key of the query at a position. -/
def readKey (query : List FlatKey) (position : Nat) : Except WalkFault FlatKey :=
  match query[position]? with
  | some key => .ok key
  | none => .error (.pastEnd position)

/-- One stored term less. -/
def countDown : Nat → Except WalkFault Nat
  | 0 => .error .countUnderflow
  | remaining + 1 => .ok remaining

namespace WalkCall

/-- The call that goes on at the child with a key, if there is one. -/
def under (node : Trie FlatKey α) (key : FlatKey) (position : Nat) : List (WalkCall α) :=
  (node.children.lookup key).toList.map fun child => visit child position

/-- What a call does: the values that it finds itself and the calls that it makes, in order. -/
def step (m : Matching) (query : List FlatKey) :
    WalkCall α → Except WalkFault (List α × List (WalkCall α))
  | .visit node position =>
    if position = query.length then .ok (node.values, [])
    else do
      let key ← readKey query position
      if m.query ∧ key = .star then .ok ([], [.skip node 1 (position + 1)])
      else
        .ok ([], under node key (position + 1) ++
          if m.stored ∧ key ≠ .star then under node .star (position + subtermSize query position) else [])
  | .skip node remaining position =>
    if remaining = 0 then .ok ([], [.visit node position])
    else do
      let rest ← countDown remaining
      .ok ([], node.children.map fun e => skip e.2 (rest + e.1.arity) position)

/-- The position at which the query goes on. -/
def position : WalkCall α → Nat
  | .visit _ position => position
  | .skip _ _ position => position

/-- What a search finds from a call on. -/
def found (m : Matching) (query : List FlatKey) : WalkCall α → List α
  | .visit node position => node.search m 0 (query.drop position)
  | .skip node remaining position => node.search m remaining (query.drop position)

/-- How far a call is from the end of a walk: three calls lead from a node to its children. -/
def rank : WalkCall α → Nat
  | .visit node _ => 3 * node.height + 1
  | .skip node 0 _ => 3 * node.height + 2
  | .skip node (_ + 1) _ => 3 * node.height

/-- A call has no fault, finds what it has to find, and makes calls inside of the query that are nearer to the
end. -/
structure Safe (m : Matching) (query : List FlatKey) (call : WalkCall α) (values : List α)
    (more : List (WalkCall α)) : Prop where
  /-- There is no fault. -/
  step_eq : call.step m query = .ok (values, more)
  /-- Nothing is lost. -/
  found_eq : call.found m query = values ++ more.flatMap (found m query)
  /-- The calls that are made stay inside of the query. -/
  position_le : ∀ next ∈ more, next.position ≤ query.length
  /-- They are nearer to the end. -/
  rank_lt : ∀ next ∈ more, next.rank < call.rank

variable {m : Matching} {query : List FlatKey}

/-- The call at the child with a key finds what is below that branch. -/
theorem flatMap_found_under (values : Array α) (branches : Branches FlatKey α) (key : FlatKey)
    (position : Nat) :
    (under (.node values branches) key position).flatMap (found m query) =
      branches.searchUnder m key (query.drop position) := by
  rw [under, List.flatMap_map, Branches.searchUnder_eq_flatMap]
  rfl

theorem position_of_mem_under {node : Trie FlatKey α} {key : FlatKey} {position : Nat}
    {next : WalkCall α} (h : next ∈ under node key position) : next.position = position := by
  obtain ⟨child, -, rfl⟩ := List.mem_map.1 h
  rfl

/-- The call at a child is nearer to the end than one at the node. -/
theorem rank_lt_of_mem_under {node : Trie FlatKey α} {key : FlatKey} {position : Nat}
    {next : WalkCall α} (h : next ∈ under node key position) (here : Nat) :
    next.rank < (visit node here).rank := by
  obtain ⟨child, hchild, rfl⟩ := List.mem_map.1 h
  have hlt : child.height < node.height :=
    Trie.height_lt_of_mem (mem_of_lookup_eq_some (Option.mem_toList.1 hchild))
  rw [rank, rank]
  omega

/-- Passing over stored terms never counts below zero. -/
theorem skip_safe (node : Trie FlatKey α) (remaining : Nat) {position : Nat}
    (h : position ≤ query.length) :
    ∃ values more, Safe m query (.skip node remaining position) values more := by
  cases remaining with
  | zero =>
    refine ⟨[], [.visit node position], ?_, ?_, ?_, ?_⟩
    · rfl
    · rw [List.flatMap_singleton]
      rfl
    · exact fun next hnext => List.mem_singleton.1 hnext ▸ h
    · intro next hnext
      rw [List.mem_singleton.1 hnext, rank, rank]
      omega
  | succ remaining =>
    refine ⟨[], node.children.map fun e => skip e.2 (remaining + e.1.arity) position, rfl, ?_, ?_, ?_⟩
    · rw [List.nil_append, List.flatMap_map]
      obtain ⟨values, branches⟩ := node
      exact branches.searchAll_eq_flatMap m remaining (query.drop position)
    · rw [List.forall_mem_map]
      exact fun _ _ => h
    · rw [List.forall_mem_map]
      intro e he
      have hlt := Trie.height_lt_of_mem he
      -- the arity of a key may leave any number of terms to pass over, but the child is lower
      have hle : (skip e.2 (remaining + e.1.arity) position).rank ≤ 3 * e.2.height + 2 := by
        cases remaining + e.1.arity <;> simp [rank]
      rw [rank]
      omega

/-- At the end of the query the values of the node are found. -/
theorem visit_safe_end (node : Trie FlatKey α) :
    Safe m query (.visit node query.length) node.values [] where
  step_eq := if_pos rfl
  found_eq := by
    rw [found, List.drop_length, List.flatMap_nil, List.append_nil]
    cases node
    rfl
  position_le _ hnext := absurd hnext List.not_mem_nil
  rank_lt _ hnext := absurd hnext List.not_mem_nil

theorem readKey_eq_ok {position : Nat} (h : position < query.length) :
    readKey query position = .ok query[position] := by
  rw [readKey, List.getElem?_eq_getElem h]

/-- A variable of the query that stands for any term has one stored term passed over, from this node on. -/
theorem visit_safe_star (node : Trie FlatKey α) {position : Nat} (h : position < query.length)
    (hstar : m.query ∧ query[position] = .star) :
    Safe m query (.visit node position) [] [.skip node 1 (position + 1)] where
  step_eq := by
    rw [step, if_neg h.ne, readKey_eq_ok h]
    exact if_pos hstar
  found_eq := by
    obtain ⟨values, branches⟩ := node
    rw [List.flatMap_singleton, found, found, List.drop_eq_getElem_cons h, Trie.search, if_pos hstar]
    rfl
  position_le next hnext := List.mem_singleton.1 hnext ▸ h
  rank_lt next hnext := by
    rw [List.mem_singleton.1 hnext, rank, rank]
    omega

/-- Any other key of the query is met by itself, or as the start of a term that a stored variable stands for. -/
theorem visit_safe_key (node : Trie FlatKey α) {position : Nat} (h : position < query.length)
    (hstar : ¬ (m.query ∧ query[position] = .star)) :
    ∃ more, Safe m query (.visit node position) [] more := by
  refine ⟨under node query[position] (position + 1) ++ if m.stored ∧ query[position] ≠ .star then
    under node .star (position + subtermSize query position) else [], ?_⟩
  -- both branches go on inside of the query, as the term that starts here ends inside
  have hunder : ∀ next ∈ under node query[position] (position + 1) ++
      (if m.stored ∧ query[position] ≠ .star then
        under node .star (position + subtermSize query position) else []),
      ∃ key later, later ≤ query.length ∧ next ∈ under node key later := by
    intro next hnext
    rcases List.mem_append.1 hnext with hnext | hnext
    · exact ⟨_, _, h, hnext⟩
    · split at hnext
      · exact ⟨_, _, add_subtermSize_le h.le, hnext⟩
      · cases hnext
  refine ⟨?_, ?_, fun next hnext => ?_, fun next hnext => ?_⟩
  · rw [step, if_neg h.ne, readKey_eq_ok h]
    exact if_neg hstar
  · obtain ⟨values, branches⟩ := node
    have hdrop := List.drop_eq_getElem_cons h
    have hskip : skipTerms 1 (query.drop position) =
        query.drop (position + subtermSize query position) := by
      rw [skipTerms_eq_drop, List.drop_drop]
      rfl
    rw [found, hdrop, Trie.search, if_neg hstar, ← hdrop, List.nil_append, List.flatMap_append,
      flatMap_found_under, Branches.searchStar_eq_searchUnder, hskip]
    split
    · rw [flatMap_found_under]
    · rfl
  · obtain ⟨key, later, hle, hmem⟩ := hunder next hnext
    rwa [position_of_mem_under hmem]
  · obtain ⟨key, later, -, hmem⟩ := hunder next hnext
    exact rank_lt_of_mem_under hmem position

/-- A call inside of the query is safe. -/
theorem step_safe (call : WalkCall α) (h : call.position ≤ query.length) :
    ∃ values more, Safe m query call values more := by
  cases call with
  | skip node remaining position => exact skip_safe node remaining h
  | visit node position =>
    rcases Nat.lt_or_eq_of_le h with hlt | rfl
    · by_cases hstar : m.query ∧ query[position] = .star
      · exact ⟨_, _, visit_safe_star node hlt hstar⟩
      · obtain ⟨more, hsafe⟩ := visit_safe_key node hlt hstar
        exact ⟨_, more, hsafe⟩
    · exact ⟨_, _, visit_safe_end node⟩

end WalkCall

/-! ## Walks -/

/-- A walk from a list of calls on: the first call is made, and the calls that it makes come before the others.
It ends when no call is left, or at the first fault. -/
inductive WalkRun (m : Matching) (query : List FlatKey) :
    List (WalkCall α) → Except WalkFault (List α) → Prop where
  /-- No call is left. -/
  | done : WalkRun m query [] (.ok [])
  /-- The first call has a fault. -/
  | fault {call : WalkCall α} {calls : List (WalkCall α)} {fault : WalkFault}
      (h : call.step m query = .error fault) : WalkRun m query (call :: calls) (.error fault)
  /-- The first call is made. -/
  | next {call : WalkCall α} {calls more : List (WalkCall α)} {values : List α}
      {outcome : Except WalkFault (List α)} (h : call.step m query = .ok (values, more))
      (hrest : WalkRun m query (more ++ calls) outcome) :
      WalkRun m query (call :: calls) (outcome.map (values ++ ·))

section Walks

variable {m : Matching} {query : List FlatKey}

/-- A walk ends in one way only. -/
theorem WalkRun.unique {calls : List (WalkCall α)} {outcome outcome' : Except WalkFault (List α)}
    (h : WalkRun m query calls outcome) (h' : WalkRun m query calls outcome') : outcome = outcome' := by
  induction h generalizing outcome' with
  | done =>
    cases h'
    rfl
  | fault h =>
    cases h' with
    | fault h' => exact congrArg Except.error (Except.error.inj (h.symm.trans h'))
    | next h' => cases h.symm.trans h'
  | next h _ ih =>
    cases h' with
    | fault h' => cases h.symm.trans h'
    | next h' hrest' =>
      cases h.symm.trans h'
      rw [ih hrest']

/-- Values are put in front of an outcome in one step or in two. -/
theorem map_append_map (outcome : Except WalkFault (List α)) (front middle : List α) :
    (outcome.map (middle ++ ·)).map (front ++ ·) = outcome.map (front ++ middle ++ ·) := by
  cases outcome with
  | error fault => rfl
  | ok values => exact congrArg Except.ok (List.append_assoc front middle values).symm

/-- A call ends with the given values, whatever calls come after it. -/
def WalkCall.Returns (m : Matching) (query : List FlatKey) (call : WalkCall α) (values : List α) : Prop :=
  ∀ {calls outcome}, WalkRun m query calls outcome →
    WalkRun m query (call :: calls) (outcome.map (values ++ ·))

/-- Calls that end one by one end one after the other. -/
theorem WalkRun.append {f : WalkCall α → List α} {more calls : List (WalkCall α)}
    {outcome : Except WalkFault (List α)} (hmore : ∀ call ∈ more, call.Returns m query (f call))
    (h : WalkRun m query calls outcome) :
    WalkRun m query (more ++ calls) (outcome.map (more.flatMap f ++ ·)) := by
  induction more with
  | nil =>
    have hsame : outcome.map (([] : List (WalkCall α)).flatMap f ++ ·) = outcome := by
      cases outcome <;> rfl
    rwa [hsame]
  | cons call more ih =>
    obtain ⟨hcall, hmore⟩ := List.forall_mem_cons.1 hmore
    rw [List.flatMap_cons, ← map_append_map]
    exact hcall (ih hmore)

/-- A call inside of the query ends with what a search finds. -/
theorem WalkCall.returns (call : WalkCall α) (h : call.position ≤ query.length) :
    call.Returns m query (call.found m query) := by
  -- every call that is made is nearer to the end of the walk
  induction hrank : call.rank using Nat.strongRecOn generalizing call with
  | ind rank ih =>
    obtain ⟨values, more, hsafe⟩ := call.step_safe (m := m) h
    intro calls outcome hcalls
    have hmore : ∀ next ∈ more, next.Returns m query (next.found m query) := fun next hnext =>
      ih _ (hrank ▸ hsafe.rank_lt next hnext) next (hsafe.position_le next hnext) rfl
    rw [hsafe.found_eq, ← map_append_map]
    exact .next hsafe.step_eq (hcalls.append hmore)

/-- A walk from the root ends, without a fault, with what a search finds. -/
theorem walkRun_iff (root : Trie FlatKey α) (outcome : Except WalkFault (List α)) :
    WalkRun m query [.visit root 0] outcome ↔ outcome = .ok (root.search m 0 query) := by
  have hrun : WalkRun m query [.visit root 0] (.ok (root.search m 0 query)) := by
    have hreturns := WalkCall.returns (m := m) (.visit root 0) (Nat.zero_le query.length) .done
    rw [Except.map, List.append_nil] at hreturns
    exact hreturns
  refine ⟨fun h => h.unique hrun, ?_⟩
  rintro rfl
  exact hrun

end Walks

/-- Searching is safe whatever arities are stored:

* measuring a term of a key sequence ends at every position, and the term does not reach further than the keys
  go; it takes up at least one key, unless it starts at the end;
* for every tree and every query the walks for generalizations, for instances and for unifiable terms end. No
  walk asks for a key past the end of the query or counts below zero, and each finds what the search finds. -/
theorem DiscriminationTree.walks_safe (tree : DiscriminationTree α) (query : Term) :
    (∀ (keys : List FlatKey) (position : Nat), position ≤ keys.length →
      (∀ size, MeasureRun keys position size ↔ size = subtermSize keys position) ∧
      position + subtermSize keys position ≤ keys.length ∧
      (position < keys.length → position + 1 ≤ position + subtermSize keys position)) ∧
    (∀ outcome, WalkRun ⟨true, false⟩ query.queryKeys [.visit tree.root 0] outcome ↔
      outcome = .ok (tree.generalizations query)) ∧
    (∀ outcome, WalkRun ⟨false, true⟩ query.storedKeys [.visit tree.root 0] outcome ↔
      outcome = .ok (tree.instances query)) ∧
    (∀ outcome, WalkRun ⟨true, true⟩ query.storedKeys [.visit tree.root 0] outcome ↔
      outcome = .ok (tree.unifiable query)) := by
  refine ⟨fun keys position h => ⟨fun size => measureRun_iff, add_subtermSize_le h, fun hlt => ?_⟩,
    walkRun_iff tree.root, walkRun_iff tree.root, walkRun_iff tree.root⟩
  rw [subtermSize_of_getElem? (List.getElem?_eq_getElem hlt)]
  omega

/-- Two applications of one symbol, with arity 3 to one argument and with arity 0 to two, and a variable. The
first as a query is measured as far as its keys go. A variable as a query runs out of keys below the first,
passes over the symbol of the second alone and finds the stored variable only. -/
theorem DiscriminationTree.walks_safe_misfits :
    let short : Term := .app ⟨0, 3⟩ [.const 0]
    let long : Term := .app ⟨0, 0⟩ [.var 0, .const 0]
    let tree : DiscriminationTree Nat := ((empty.insert short 1).insert long 2).insert (.var 0) 3
    0 ≤ short.queryKeys.length ∧ MeasureRun short.queryKeys 0 2 ∧
      WalkRun ⟨true, false⟩ short.queryKeys [.visit tree.root 0] (.ok [1, 3]) ∧
      WalkRun ⟨false, true⟩ (Term.storedKeys (.var 0)) [.visit tree.root 0] (.ok [3]) ∧
      WalkRun ⟨true, true⟩ long.storedKeys [.visit tree.root 0] (.ok [2]) := by
  intro short long tree
  obtain ⟨hmeasure, hgeneralizations, -, -⟩ := tree.walks_safe short
  obtain ⟨-, -, hinstances, -⟩ := tree.walks_safe (.var 0)
  obtain ⟨-, -, -, hunifiable⟩ := tree.walks_safe long
  refine ⟨Nat.zero_le _, ((hmeasure _ 0 (Nat.zero_le _)).1 2).2 (by decide), (hgeneralizations _).2 ?_,
    (hinstances _).2 ?_, (hunifiable _).2 ?_⟩
  · decide +kernel
  · decide +kernel
  · decide +kernel

end GivenClause
