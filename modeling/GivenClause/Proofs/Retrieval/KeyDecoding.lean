import GivenClause.Proofs.Retrieval.TermSearch

/-! # Reading terms back from key sequences

A key sequence is read by the arities in its keys, and an arity is kept modulo 256. An application with
more arguments than its key asks for leaves keys over: what follows it in the sequence is then read as
arguments of an enclosing application, or as the start of another term. Counting tells the two kinds of
terms apart. The keys of a term ask for one term less than there are keys exactly when every application
stores the number of its arguments, and for fewer otherwise.

* `askedTerms` counts the terms that keys ask for, `Term.WellFormed.askedTerms_storedKeys` is the count for a
  term;
* `Term.ArityExact.keysOnto_inj` reads exact terms back from the front of a key sequence;
* `storedKeys_decoding` puts both together, `storedKeys_ambiguous` is a pair of wide terms with one key
  sequence. -/

namespace GivenClause

/-! ## Counting -/

/-- How many terms the keys of a sequence ask for, all their arities together. -/
def askedTerms : List FlatKey → Nat
  | [] => 0
  | key :: keys => key.arity + askedTerms keys

@[simp] theorem askedTerms_append (front back : List FlatKey) :
    askedTerms (front ++ back) = askedTerms front + askedTerms back := by
  induction front with
  | nil => simp [askedTerms]
  | cons key front ih =>
    simp only [List.cons_append, askedTerms, ih]
    omega

/-- Reading stops before the end of keys that ask for too few terms, whatever follows them. -/
theorem termsLength_lt_of_askedTerms_lt {count : Nat} {keys : List FlatKey} (tail : List FlatKey)
    (h : count + askedTerms keys < keys.length) : termsLength count (keys ++ tail) < keys.length := by
  induction keys generalizing count with
  | nil => simp at h
  | cons key keys ih =>
    cases count with
    | zero => simp [termsLength]
    | succ count =>
      -- one key is read, and what it asks for is still to be read
      simp only [askedTerms, List.length_cons] at h
      have hrest : termsLength (count + key.arity) (keys ++ tail) < keys.length := ih (by omega)
      simpa [termsLength] using hrest

theorem termsLength_le_length (count : Nat) (keys : List FlatKey) : termsLength count keys ≤ keys.length := by
  induction keys generalizing count with
  | nil => cases count <;> simp [termsLength]
  | cons key keys ih =>
    cases count with
    | zero => simp [termsLength]
    | succ count => simpa [termsLength] using ih (count + key.arity)

namespace Term

/-- A term in front of further keys. -/
theorem keysOnto_eq_storedKeys_append (t : Term) (tail : List FlatKey) :
    keysOnto (fun _ => .star) t tail = t.storedKeys ++ tail := by
  rw [storedKeys, ← keysOnto_append, List.nil_append]

theorem storedKeys_app (f : FunctionSymbol) (args : List Term) :
    storedKeys (.app f args) = .function f.id f.arity :: args.flatMap storedKeys := by
  rw [storedKeys, keysOnto, keysListOnto_eq_foldr, List.cons.injEq]
  refine ⟨rfl, ?_⟩
  induction args with
  | nil => rfl
  | cons a args ih => rw [List.foldr_cons, ih, keysOnto_eq_storedKeys_append, List.flatMap_cons]

/-- Argument lists: if the keys of each argument ask for at most one term less than they are, and for that many
only if the argument is exact, then the same holds of all of them together. -/
theorem askedTerms_flatMap_storedKeys {args : List Term}
    (h : ∀ a ∈ args, askedTerms a.storedKeys + 1 ≤ a.storedKeys.length ∧
      (askedTerms a.storedKeys + 1 = a.storedKeys.length ↔ a.ArityExact)) :
    askedTerms (args.flatMap storedKeys) + args.length ≤ (args.flatMap storedKeys).length ∧
      (askedTerms (args.flatMap storedKeys) + args.length = (args.flatMap storedKeys).length ↔
        ∀ a ∈ args, a.ArityExact) := by
  induction args with
  | nil => simp [askedTerms]
  | cons a args ih =>
    obtain ⟨hle, hiff⟩ := h a List.mem_cons_self
    obtain ⟨hles, hiffs⟩ := ih fun b hb => h b (List.mem_cons_of_mem a hb)
    rw [List.forall_mem_cons, ← hiff, ← hiffs]
    simp only [List.flatMap_cons, askedTerms_append, List.length_append, List.length_cons]
    omega

/-- The keys of a term ask for at most one term less than there are keys, and for exactly that many when every
application stores the number of its arguments. -/
theorem WellFormed.askedTerms_storedKeys {t : Term} (ht : t.WellFormed) :
    askedTerms t.storedKeys + 1 ≤ t.storedKeys.length ∧
      (askedTerms t.storedKeys + 1 = t.storedKeys.length ↔ t.ArityExact) := by
  induction t using TermOver.induction with
  | var x =>
    refine ⟨Nat.le_refl 1, iff_of_true rfl fun e he => ?_⟩
    rw [List.mem_singleton.1 he]
    rfl
  | const c =>
    refine ⟨Nat.le_refl 1, iff_of_true rfl fun e he => ?_⟩
    rw [List.mem_singleton.1 he]
    rfl
  | app f args ih =>
    obtain ⟨harity, hargs⟩ := wellFormed_app.1 ht
    obtain ⟨hle, hiff⟩ := askedTerms_flatMap_storedKeys fun a ha => ih a ha (hargs a ha)
    -- the stored arity is a remainder of the number of arguments
    have hmod : f.arity.toNat = args.length % 256 := by
      rw [harity]
      rfl
    rw [arityExact_app, ← hiff, storedKeys_app]
    simp only [askedTerms, FlatKey.arity, List.length_cons]
    omega

/-! ## Exact terms -/

/-- Names of variables do not show in the keys. -/
theorem keysOnto_congr {s t : Term} (h : s.forgetVars = t.forgetVars) (tail : List FlatKey) :
    keysOnto (fun _ => .star) s tail = keysOnto (fun _ => .star) t tail := by
  induction s using TermOver.induction generalizing t tail with
  | var x => cases t <;> simp_all [keysOnto]
  | const c => cases t <;> simp_all [keysOnto]
  | app f ss ih =>
    cases t with
    | var y => simp at h
    | const d => simp at h
    | app g ts =>
      simp only [TermOver.forgetVars_app, TermOver.app.injEq] at h
      obtain ⟨rfl, hargs⟩ := h
      simp only [keysOnto, keysListOnto_eq_foldr, List.cons.injEq, true_and]
      -- the arguments one by one, each in front of those that follow it
      induction ss generalizing ts with
      | nil => simp_all
      | cons s ss ihs =>
        cases ts with
        | nil => simp at hargs
        | cons t ts =>
          simp only [List.map_cons, List.cons.injEq] at hargs
          rw [List.foldr_cons, List.foldr_cons,
            ihs (fun u hu => ih u (List.mem_cons_of_mem s hu)) ts hargs.2]
          exact ih s List.mem_cons_self hargs.1 _

/-- Argument lists of one length are read back member by member, if their members are. -/
theorem keysListOnto_inj {ss ts : List Term}
    (ih : ∀ s ∈ ss, ∀ t ∈ ts, ∀ tail tail',
      keysOnto (fun _ => .star) s tail = keysOnto (fun _ => .star) t tail' →
        s.forgetVars = t.forgetVars ∧ tail = tail')
    (hlength : ss.length = ts.length) {tail tail' : List FlatKey}
    (h : keysListOnto (fun _ => .star) ss tail = keysListOnto (fun _ => .star) ts tail') :
    ss.map TermOver.forgetVars = ts.map TermOver.forgetVars ∧ tail = tail' := by
  induction ss generalizing ts with
  | nil =>
    rw [List.length_nil, eq_comm, List.length_eq_zero_iff] at hlength
    subst hlength
    exact ⟨rfl, h⟩
  | cons s ss ihs =>
    cases ts with
    | nil => cases hlength
    | cons t ts =>
      rw [keysListOnto, keysListOnto] at h
      obtain ⟨hhead, hrest⟩ := ih s List.mem_cons_self t List.mem_cons_self _ _ h
      obtain ⟨htail, heq⟩ := ihs
        (fun u hu v hv => ih u (List.mem_cons_of_mem s hu) v (List.mem_cons_of_mem t hv))
        (Nat.succ.inj hlength) hrest
      exact ⟨by rw [List.map_cons, List.map_cons, hhead, htail], heq⟩

/-- Of two key sequences that start with an exact term each, equal ones start with the same term, up to the
names of variables, and go on in the same way. -/
theorem ArityExact.keysOnto_inj {s t : Term} (hs : s.ArityExact) (ht : t.ArityExact)
    {tail tail' : List FlatKey}
    (h : keysOnto (fun _ => .star) s tail = keysOnto (fun _ => .star) t tail') :
    s.forgetVars = t.forgetVars ∧ tail = tail' := by
  induction s using TermOver.induction generalizing t tail tail' with
  | var x => cases t <;> simp_all [keysOnto]
  | const c => cases t <;> simp_all [keysOnto]
  | app f ss ih =>
    cases t with
    | var y => simp [keysOnto] at h
    | const d => simp [keysOnto] at h
    | app g ts =>
      obtain ⟨hlength, hargs⟩ := arityExact_app.1 hs
      obtain ⟨hlength', hargs'⟩ := arityExact_app.1 ht
      rw [keysOnto, keysOnto, List.cons.injEq, FlatKey.function.injEq] at h
      obtain ⟨⟨hid, harity⟩, hrest⟩ := h
      -- equal stored arities are equal numbers of arguments
      rw [harity] at hlength
      obtain ⟨hforget, heq⟩ := keysListOnto_inj
        (fun s hs t ht _ _ => ih s hs (hargs s hs) (hargs' t ht)) (hlength.symm.trans hlength') hrest
      have hfg : f = g := by
        cases f
        cases g
        simp_all
      exact ⟨by rw [TermOver.forgetVars_app, TermOver.forgetVars_app, hfg, hforget], heq⟩

/-- An exact term takes up all its keys, whatever follows them. -/
theorem ArityExact.termsLength_storedKeys {t : Term} (ht : t.ArityExact) (tail : List FlatKey) :
    termsLength 1 (t.storedKeys ++ tail) = t.storedKeys.length := by
  have hskip : skipTerms 1 (keysOnto (fun _ => .star) t tail) = tail :=
    skipTerms_keysOnto (fun _ => rfl) ht tail
  rw [keysOnto_eq_storedKeys_append, skipTerms_eq_drop] at hskip
  have hlength := congrArg List.length hskip
  have hle := termsLength_le_length 1 (t.storedKeys ++ tail)
  rw [List.length_drop, List.length_append] at hlength
  rw [List.length_append] at hle
  omega

/-- A well formed term with the keys of an exact term is exact. -/
theorem ArityExact.of_storedKeys_eq {s t : Term} (hs : s.ArityExact) (hwf : s.WellFormed)
    (ht : t.WellFormed) (h : s.storedKeys = t.storedKeys) : t.ArityExact := by
  rw [← ht.askedTerms_storedKeys.2, ← h]
  exact hwf.askedTerms_storedKeys.2.2 hs

end Term

/-! ## Reading back -/

/-- What the keys of a term tell. For terms whose applications store the number of their arguments modulo 256:

* terms that differ in the names of variables only have the same keys;
* terms with the same keys differ in the names of variables only, if one of them has at most 255 arguments
  at every application;
* the size that is read off the keys of a term, whatever follows them, is the number of its keys exactly
  when it has at most 255 arguments at every application. -/
theorem storedKeys_decoding {s t : Term} (hs : s.WellFormed) (ht : t.WellFormed) :
    (s.forgetVars = t.forgetVars → s.storedKeys = t.storedKeys) ∧
    (s.storedKeys = t.storedKeys → s.ArityExact ∨ t.ArityExact → s.forgetVars = t.forgetVars) ∧
    ∀ tail, subtermSize (t.storedKeys ++ tail) 0 = t.storedKeys.length ↔ t.ArityExact := by
  refine ⟨fun h => Term.keysOnto_congr h [], ?_, ?_⟩
  · intro h hexact
    have hboth : s.ArityExact ∧ t.ArityExact := by
      rcases hexact with hexact | hexact
      · exact ⟨hexact, hexact.of_storedKeys_eq hs ht h⟩
      · exact ⟨hexact.of_storedKeys_eq ht hs h.symm, hexact⟩
    exact (hboth.1.keysOnto_inj hboth.2 h).1
  · intro tail
    refine ⟨fun h => ?_, fun h => h.termsLength_storedKeys tail⟩
    by_contra hinexact
    -- the keys ask for too few terms, so reading stops among them
    obtain ⟨hle, hiff⟩ := ht.askedTerms_storedKeys
    have hlt : 1 + askedTerms t.storedKeys < t.storedKeys.length := by
      have hne := mt hiff.1 hinexact
      omega
    exact absurd h (termsLength_lt_of_askedTerms_lt tail hlt).ne

/-- `f(g(x), x, a)` and `f(g(y), z, a)`, the second in front of another key. -/
theorem storedKeys_decoding_nested :
    let s : Term := .apply 0 [.apply 1 [.var 0], .var 0, .const 0]
    let t : Term := .apply 0 [.apply 1 [.var 1], .var 2, .const 0]
    s.storedKeys = t.storedKeys ∧ s.forgetVars = t.forgetVars ∧
      subtermSize (t.storedKeys ++ [.star]) 0 = 5 := by
  intro s t
  obtain ⟨hkeys, hforget, hsize⟩ := storedKeys_decoding (s := s) (t := t) (by decide) (by decide)
  have hsame : s.storedKeys = t.storedKeys := hkeys rfl
  exact ⟨hsame, hforget hsame (Or.inl (by decide)), (hsize [.star]).2 (by decide)⟩

/-- The terms `g(f(a, …, a))` with 256 arguments of `f` and `g(f(), a, …, a)` with 257 arguments of `g`
have the same keys, so that a tree gives up the value of the one when the other is removed. The 257 keys of
`f(a, …, a)` are read as one. -/
theorem storedKeys_ambiguous :
    let wide : Term := .apply 0 (List.replicate 256 (.const 0))
    let s : Term := .apply 1 [wide]
    let t : Term := .apply 1 (.apply 0 [] :: List.replicate 256 (.const 0))
    s.storedKeys = t.storedKeys ∧ s.forgetVars ≠ t.forgetVars ∧
      ((DiscriminationTree.empty.insert s 1).erase? t 1).map DiscriminationTree.isEmpty = some true ∧
      subtermSize wide.storedKeys 0 = 1 ∧ wide.storedKeys.length = 257 := by
  decide +kernel

end GivenClause
