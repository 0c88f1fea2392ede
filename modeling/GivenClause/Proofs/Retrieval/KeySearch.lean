import GivenClause.Proofs.Retrieval.TreeContents
import GivenClause.Proofs.Term.Replacing

/-! # What a search finds

A search goes through a trie branch by branch. Whether it meets an entry depends on the key sequence of
that entry and on the query only, and each entry that it meets is found once. Read as terms, a stored
sequence is met exactly when the stored term and the query agree symbol by symbol, apart from the
variable occurrences that stand for any term.

* `Matching.accepts` tells of one stored key sequence whether a search meets it, `Trie.WellShaped.search_perm`
  says that a search finds just the values of the sequences that it accepts;
* `Term.ArityExact` terms are complete in a key sequence: `Term.passOver_keysOnto`;
* `Matching.agrees` compares a stored term with a query, `Matching.accepts_keysOnto` ties it to the key
  sequences. -/

namespace GivenClause

variable {α : Type}

/-! ## Values of listed entries -/

/-- The values of the listed entries whose key sequence passes a test. -/
def valuesWhere (test : List FlatKey → Bool) (entries : List (List FlatKey × α)) : List α :=
  (entries.filter fun e => test e.1).map Prod.snd

section ValuesWhere

variable {test test' : List FlatKey → Bool} {entries entries' : List (List FlatKey × α)}

theorem valuesWhere_append :
    valuesWhere test (entries ++ entries') = valuesWhere test entries ++ valuesWhere test entries' := by
  rw [valuesWhere, List.filter_append, List.map_append]
  rfl

theorem valuesWhere_map_cons (key : FlatKey) :
    valuesWhere test (entries.map fun e => (key :: e.1, e.2)) =
      valuesWhere (fun keys => test (key :: keys)) entries := by
  rw [valuesWhere, List.filter_map, List.map_map]
  rfl

theorem valuesWhere_eq_nil (h : ∀ e ∈ entries, test e.1 = false) : valuesWhere test entries = [] := by
  rw [valuesWhere, List.filter_eq_nil_iff.2 fun e he => by simp [h e he], List.map_nil]

theorem valuesWhere_perm (h : entries.Perm entries') :
    (valuesWhere test entries).Perm (valuesWhere test entries') :=
  (h.filter _).map _

/-- Values under key sequences that pass one of two tests, which no key sequence passes both. -/
theorem valuesWhere_or_perm (h : ∀ keys, test keys = true → test' keys = false) :
    (valuesWhere (fun keys => test keys || test' keys) entries).Perm
      (valuesWhere test entries ++ valuesWhere test' entries) := by
  induction entries with
  | nil => exact List.Perm.refl _
  | cons e entries ih =>
    simp only [valuesWhere, List.filter_cons] at ih ⊢
    cases htest : test e.1 with
    | true => simpa [h e.1 htest] using ih
    | false =>
      cases htest' : test' e.1 with
      | true => simpa using (ih.cons e.2).trans List.perm_middle.symm
      | false => simpa using ih

/-- The values of a node itself pass when the empty key sequence does. -/
theorem valuesWhere_node (values : Array α) (branches : Branches FlatKey α) :
    valuesWhere test (Trie.node values branches).toList =
      (if test [] then values.toList else []) ++ valuesWhere test branches.toList := by
  rw [Trie.toList_node, valuesWhere_append]
  congr 1
  cases h : test [] <;> simp [valuesWhere, List.filter_map, Function.comp_def, h]

end ValuesWhere

/-! ## Key sequences that a search accepts -/

namespace Matching

/-- Whether a search with the rest `query` of its keys meets a stored key sequence, after `pending` more
stored terms are passed over. -/
def accepts (m : Matching) : (pending : Nat) → (stored query : List FlatKey) → Bool
  | 0, [], [] => true
  | 0, [], _ :: _ => false
  | 0, _ :: _, [] => false
  | 0, key :: stored, first :: query =>
    if m.query ∧ first = .star then m.accepts (0 + key.arity) stored query
    else
      (decide (key = first) && m.accepts 0 stored query) ||
        (decide (m.stored ∧ first ≠ .star ∧ key = .star) &&
          m.accepts 0 stored (skipTerms 1 (first :: query)))
  | _ + 1, [], _ => false
  | pending + 1, key :: stored, query => m.accepts (pending + key.arity) stored query

/-- Whether a stored key sequence goes on below the branch `key` with what a search accepts. -/
def acceptsUnder (m : Matching) (key : FlatKey) (query : List FlatKey) : List FlatKey → Bool
  | [] => false
  | first :: stored => decide (first = key) && m.accepts 0 stored query

theorem acceptsUnder_eq_false {m : Matching} {key : FlatKey} {query stored : List FlatKey}
    (h : stored.head? ≠ some key) : m.acceptsUnder key query stored = false := by
  cases stored with
  | nil => rfl
  | cons first stored => rw [acceptsUnder, decide_eq_false fun heq => h (congrArg some heq), Bool.false_and]

/-- A variable of the query that stands for any term has one stored term passed over. -/
theorem accepts_star {m : Matching} (h : m.query = true) (stored query : List FlatKey) :
    m.accepts 0 stored (.star :: query) = m.accepts 1 stored query := by
  cases stored with
  | nil => rfl
  | cons key stored => rw [accepts, if_pos ⟨h, rfl⟩, accepts]

/-- Any other key of the query is met by itself, or as the start of a term that a stored variable stands
for. -/
theorem accepts_cons {m : Matching} {first : FlatKey} (h : ¬ (m.query ∧ first = .star))
    (stored query : List FlatKey) :
    m.accepts 0 stored (first :: query) =
      (m.acceptsUnder first query stored ||
        (decide (m.stored ∧ first ≠ .star) &&
          m.acceptsUnder .star (skipTerms 1 (first :: query)) stored)) := by
  cases stored with
  | nil => simp [accepts, acceptsUnder]
  | cons key stored =>
    rw [accepts, if_neg h, acceptsUnder, acceptsUnder]
    simp only [Bool.decide_and, Bool.and_assoc]

end Matching

/-! ## What the search of a trie finds -/

/-- The branch of stored variables is searched like any other, with the first term of the query passed
over. -/
theorem Branches.searchStar_eq_searchUnder (m : Matching) (keys : List FlatKey) :
    ∀ branches : Branches FlatKey α,
      branches.searchStar m keys = branches.searchUnder m .star (skipTerms 1 keys)
  | .nil => rfl
  | .cons other child rest => by
    rw [Branches.searchStar, Branches.searchUnder, Branches.searchStar_eq_searchUnder m keys rest]

mutual

/-- A search finds the values under the key sequences that it accepts, each as often as it is stored. -/
theorem Trie.WellShaped.search_perm (m : Matching) :
    ∀ {trie : Trie FlatKey α}, trie.WellShaped → ∀ (pending : Nat) (keys : List FlatKey),
      (trie.search m pending keys).Perm
        (valuesWhere (fun stored => m.accepts pending stored keys) trie.toList)
  | .node values branches, hshape, 0, [] => by
    have hbelow : valuesWhere (fun stored => m.accepts 0 stored []) branches.toList = [] := by
      refine valuesWhere_eq_nil fun e he => ?_
      obtain ⟨key, -, keys, hkeys⟩ := Branches.key_mem_of_mem_toListBy he
      rw [hkeys, Matching.accepts]
    rw [Trie.search, valuesWhere_node, hbelow, Matching.accepts, if_pos rfl, List.append_nil]
  | .node values branches, hshape, 0, key :: keys => by
    rw [Trie.search, valuesWhere_node, Matching.accepts, if_neg Bool.false_ne_true, List.nil_append]
    split
    · next hstar =>
      obtain ⟨hquery, rfl⟩ := hstar
      simp only [Matching.accepts_star hquery]
      exact Branches.WellShaped.searchAll_perm m hshape 0 keys
    · next hstar =>
      have hunder := Branches.WellShaped.searchUnder_perm m hshape key keys
      simp only [Matching.accepts_cons hstar, Branches.searchStar_eq_searchUnder]
      split
      · next hstored =>
        -- a stored variable is not the key of the query, so nothing is found twice
        simp only [decide_eq_true hstored, Bool.true_and]
        refine List.Perm.trans ?_ (valuesWhere_or_perm ?_).symm
        · exact hunder.append (Branches.WellShaped.searchUnder_perm m hshape .star _)
        · rintro (- | ⟨first, stored⟩) h
          · rfl
          · simp only [Matching.acceptsUnder, Bool.and_eq_true, decide_eq_true_eq] at h ⊢
            rw [h.1, decide_eq_false hstored.2, Bool.false_and]
      · next hstored =>
        simpa only [decide_eq_false hstored, Bool.false_and, Bool.or_false, List.append_nil] using hunder
  | .node values branches, hshape, pending + 1, keys => by
    rw [Trie.search, valuesWhere_node, Matching.accepts, if_neg Bool.false_ne_true, List.nil_append]
    exact Branches.WellShaped.searchAll_perm m hshape pending keys

/-- Below the branch `key` a search finds the values under the key sequences that go on there with what
it accepts. -/
theorem Branches.WellShaped.searchUnder_perm (m : Matching) :
    ∀ {branches : Branches FlatKey α}, branches.WellShaped → ∀ (key : FlatKey) (keys : List FlatKey),
      (branches.searchUnder m key keys).Perm (valuesWhere (m.acceptsUnder key keys) branches.toList)
  | .nil, _, _, _ => List.Perm.refl _
  | .cons other child rest, hshape, key, keys => by
    have hright : ∀ e ∈ rest.toList, e.1.head? ≠ some other := fun e he => hshape.head?_ne_of_mem_rest he
    rw [Branches.WellShaped] at hshape
    obtain ⟨hchild, -, -, hrest⟩ := hshape
    rw [Branches.searchUnder, Branches.toList_cons, valuesWhere_append, valuesWhere_map_cons]
    simp only [Matching.acceptsUnder]
    split
    · next heq =>
      subst heq
      -- no other branch has this key
      rw [valuesWhere_eq_nil fun e he => Matching.acceptsUnder_eq_false (hright e he), List.append_nil]
      simpa using hchild.search_perm m 0 keys
    · next hne =>
      rw [valuesWhere_eq_nil fun e _ => by rw [decide_eq_false hne, Bool.false_and], List.nil_append]
      exact hrest.searchUnder_perm m key keys

/-- Below all branches a search finds the values under the key sequences that it accepts once one more term
is passed over. -/
theorem Branches.WellShaped.searchAll_perm (m : Matching) :
    ∀ {branches : Branches FlatKey α}, branches.WellShaped → ∀ (pending : Nat) (keys : List FlatKey),
      (branches.searchAll m pending keys).Perm
        (valuesWhere (fun stored => m.accepts (pending + 1) stored keys) branches.toList)
  | .nil, _, _, _ => List.Perm.refl _
  | .cons other child rest, hshape, pending, keys => by
    rw [Branches.WellShaped] at hshape
    obtain ⟨hchild, -, -, hrest⟩ := hshape
    rw [Branches.searchAll, Branches.toList_cons, valuesWhere_append, valuesWhere_map_cons]
    simp only [Matching.accepts]
    exact (hchild.search_perm m _ keys).append (hrest.searchAll_perm m pending keys)

end

/-! ## Terms in key sequences -/

/-- Whether an application stores exactly the number of its arguments; other terms store nothing. -/
def Term.countsArguments : Term → Bool
  | .app f args => f.arity.toNat = args.length
  | _ => true

/-- Every application stores exactly the number of its arguments, so that there are at most 255. -/
def Term.ArityExact (t : Term) : Prop :=
  ∀ e ∈ t.subterms, Term.countsArguments e.2 = true

instance : DecidablePred Term.ArityExact := fun t =>
  inferInstanceAs (Decidable (∀ e ∈ t.subterms, Term.countsArguments e.2 = true))

theorem Term.arityExact_app {f : FunctionSymbol} {args : List Term} :
    Term.ArityExact (.app f args) ↔
      f.arity.toNat = args.length ∧ ∀ a ∈ args, Term.ArityExact a := by
  constructor
  · intro h
    refine ⟨of_decide_eq_true (h _ (TermOver.nil_mem_subterms _)), fun a ha d hd => ?_⟩
    obtain ⟨i, hi⟩ := List.mem_iff_getElem?.1 ha
    exact h (i :: d.1, d.2) (TermOver.mem_subterms_app.2 (Or.inr ⟨i, a, hi, d, hd, rfl⟩))
  · rintro ⟨harity, hargs⟩ e he
    obtain rfl | ⟨i, a, hi, d, hd, rfl⟩ := TermOver.mem_subterms_app.1 he
    · exact decide_eq_true harity
    · exact hargs a (List.mem_of_getElem? hi) d hd

/-- A computation that passes over terms key by key passes over a whole term as one. -/
theorem Term.passOver_keysOnto {β : Type} {F : Nat → List FlatKey → β}
    (hF : ∀ count key keys, F (count + 1) (key :: keys) = F (count + key.arity) keys)
    {onVar : Nat → FlatKey} (hvar : ∀ x, (onVar x).arity = 0) {t : Term} (ht : t.ArityExact)
    (count : Nat) (tail : List FlatKey) :
    F (count + 1) (Term.keysOnto onVar t tail) = F count tail := by
  induction t using TermOver.induction generalizing count tail with
  | var x => rw [Term.keysOnto, hF, hvar, Nat.add_zero]
  | const c => exact hF count (.constant c) tail
  | app f args ih =>
    obtain ⟨harity, hargs⟩ := Term.arityExact_app.1 ht
    rw [Term.keysOnto, hF, FlatKey.arity, harity]
    clear harity ht
    -- the arguments one by one, as many as are to be passed over
    induction args with
    | nil => rfl
    | cons a args ihArgs =>
      rw [Term.keysListOnto, List.length_cons, ← Nat.add_assoc,
        ih a List.mem_cons_self (hargs a List.mem_cons_self)]
      exact ihArgs (fun b hb => ih b (List.mem_cons_of_mem a hb))
        fun b hb => hargs b (List.mem_cons_of_mem a hb)

/-- Dropping one complete term drops it. -/
theorem skipTerms_keysOnto {onVar : Nat → FlatKey} (hvar : ∀ x, (onVar x).arity = 0) {t : Term}
    (ht : t.ArityExact) (tail : List FlatKey) : skipTerms 1 (Term.keysOnto onVar t tail) = tail := by
  have hpass := Term.passOver_keysOnto (F := skipTerms) (fun _ _ _ => by rw [skipTerms]) hvar ht 0 tail
  rwa [skipTerms] at hpass

namespace Matching

/-- A stored term is passed over as one. -/
theorem accepts_one_keysOnto (m : Matching) {onVar : Nat → FlatKey} (hvar : ∀ x, (onVar x).arity = 0)
    {t : Term} (ht : t.ArityExact) (stored query : List FlatKey) :
    m.accepts 1 (Term.keysOnto onVar t stored) query = m.accepts 0 stored query :=
  Term.passOver_keysOnto (F := fun pending keys => m.accepts pending keys query)
    (fun _ _ _ => by rw [accepts]) hvar ht 0 stored

/-! ## Terms that agree -/

mutual

/-- Whether a stored term and a query agree symbol by symbol, where variable occurrences that stand for any
term agree with every term. -/
def agrees (m : Matching) : (stored query : Term) → Bool
  | .var _, .var _ => m.stored || m.query
  | .var _, .const _ | .var _, .app _ _ => m.stored
  | .const _, .var _ | .app _ _, .var _ => m.query
  | .const c, .const d => c = d
  | .app f ss, .app g ts => f = g && m.agreesList ss ts
  | .const _, .app _ _ | .app _ _, .const _ => false

/-- Whether two argument lists agree member by member. -/
def agreesList (m : Matching) : (stored query : List Term) → Bool
  | [], [] => true
  | s :: ss, t :: ts => m.agrees s t && m.agreesList ss ts
  | [], _ :: _ | _ :: _, [] => false

end

/-- How a search writes the variables of its query. -/
def queryVar (m : Matching) (x : Nat) : FlatKey :=
  if m.query then .star else .rigid x

theorem queryVar_eq_star {m : Matching} (h : m.query = true) (x : Nat) : m.queryVar x = .star :=
  if_pos h

theorem queryVar_eq_rigid {m : Matching} (h : m.query = false) (x : Nat) : m.queryVar x = .rigid x :=
  if_neg (Bool.eq_false_iff.1 h)

theorem arity_queryVar (m : Matching) (x : Nat) : (m.queryVar x).arity = 0 := by
  rw [queryVar]
  split <;> rfl

/-- A stored variable meets the first term of the query, which is no variable, if it stands for any
term. -/
theorem accepts_star_keysOnto {m : Matching} {q : Term} (hq : q.ArityExact) (hvar : q.isVar = false)
    (stored query : List FlatKey) :
    m.accepts 0 (.star :: stored) (Term.keysOnto m.queryVar q query) =
      (m.stored && m.accepts 0 stored query) := by
  have hskip := skipTerms_keysOnto m.arity_queryVar hq query
  cases q with
  | var y => cases hvar
  | const d =>
    rw [Term.keysOnto] at hskip ⊢
    simp [accepts, hskip]
  | app g ts =>
    rw [Term.keysOnto] at hskip ⊢
    simp [accepts, hskip]

/-- Argument lists of one length are met member by member, if their members are. -/
theorem accepts_keysListOnto {m : Matching} {ss ts : List Term}
    (ih : ∀ s ∈ ss, ∀ t ∈ ts, ∀ stored query,
      m.accepts 0 (Term.keysOnto (fun _ => .star) s stored) (Term.keysOnto m.queryVar t query) =
        (m.agrees s t && m.accepts 0 stored query))
    (hlength : ss.length = ts.length) (stored query : List FlatKey) :
    m.accepts 0 (Term.keysListOnto (fun _ => .star) ss stored) (Term.keysListOnto m.queryVar ts query) =
      (m.agreesList ss ts && m.accepts 0 stored query) := by
  induction ss generalizing ts with
  | nil =>
    rw [List.length_nil, eq_comm, List.length_eq_zero_iff] at hlength
    subst hlength
    rfl
  | cons s ss ihs =>
    cases ts with
    | nil => cases hlength
    | cons t ts =>
      rw [Term.keysListOnto, Term.keysListOnto, ih s List.mem_cons_self t List.mem_cons_self,
        ihs (fun u hu v hv => ih u (List.mem_cons_of_mem s hu) v (List.mem_cons_of_mem t hv))
          (Nat.succ.inj hlength), agreesList, Bool.and_assoc]

/-- A stored term meets a variable of the query exactly when they agree. -/
theorem accepts_keysOnto_var {m : Matching} {t : Term} (ht : t.ArityExact) (y : Nat)
    (stored query : List FlatKey) :
    m.accepts 0 (Term.keysOnto (fun _ => .star) t stored) (m.queryVar y :: query) =
      (m.agrees t (.var y) && m.accepts 0 stored query) := by
  cases hquery : m.query with
  | true =>
    -- the variable stands for the stored term, which is passed over
    rw [queryVar_eq_star hquery, accepts_star hquery, accepts_one_keysOnto m (fun _ => rfl) ht]
    cases t <;> simp [agrees, hquery]
  | false =>
    rw [queryVar_eq_rigid hquery]
    cases t <;> simp [Term.keysOnto, accepts, agrees, hquery, skipTerms, FlatKey.arity]

/-- A stored term meets the first term of the query exactly when they agree. -/
theorem accepts_keysOnto {m : Matching} {t q : Term} (ht : t.ArityExact) (hq : q.ArityExact)
    (stored query : List FlatKey) :
    m.accepts 0 (Term.keysOnto (fun _ => .star) t stored) (Term.keysOnto m.queryVar q query) =
      (m.agrees t q && m.accepts 0 stored query) := by
  induction t using TermOver.induction generalizing q stored query with
  | var x =>
    cases q with
    | var y => exact accepts_keysOnto_var ht y stored query
    | const d => rw [Term.keysOnto, accepts_star_keysOnto hq rfl, agrees]
    | app g ts => rw [Term.keysOnto, accepts_star_keysOnto hq rfl, agrees]
  | const c =>
    cases q with
    | var y => exact accepts_keysOnto_var ht y stored query
    | const d => simp [Term.keysOnto, accepts, agrees]
    | app g ts => simp [Term.keysOnto, accepts, agrees]
  | app f ss ih =>
    cases q with
    | var y => exact accepts_keysOnto_var ht y stored query
    | const d => simp [Term.keysOnto, accepts, agrees]
    | app g ts =>
      obtain ⟨hss, hargs⟩ := Term.arityExact_app.1 ht
      obtain ⟨hts, hargs'⟩ := Term.arityExact_app.1 hq
      by_cases hfg : f = g
      · -- one symbol, so there are as many arguments on both sides
        subst hfg
        have hlists := accepts_keysListOnto (fun s hs t ht => ih s hs (hargs s hs) (hargs' t ht))
          (hss.symm.trans hts) stored query
        simp [Term.keysOnto, accepts, agrees, hlists]
      · have hkeys : ¬ (f.id = g.id ∧ f.arity = g.arity) := fun h => hfg (by cases f; cases g; simp_all)
        simp [Term.keysOnto, accepts, agrees, hfg, hkeys]

/-- The key sequence of a term is met by a query exactly when the terms agree. -/
theorem accepts_storedKeys {m : Matching} {t q : Term} (ht : t.ArityExact) (hq : q.ArityExact) :
    m.accepts 0 t.storedKeys (Term.keysOnto m.queryVar q []) = m.agrees t q := by
  rw [Term.storedKeys, accepts_keysOnto ht hq, accepts, Bool.and_true]

end Matching

end GivenClause
