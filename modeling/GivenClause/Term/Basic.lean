/-! # First-order terms

Terms over variables `ν` and function symbols `φ`. Two instances are used: `Term`, whose variables
are numbers and whose function symbols carry an arity, and the scoped terms of unification, whose
variables also name a premise.

* `TermOver` with decidable equality and the induction principle `TermOver.induction`;
* `TermOver.size` counts symbols, `TermOver.varOccurrences` lists variable occurrences in preorder;
* `TermOver.map` renames variables and symbols, `TermOver.bind` replaces variables by terms,
  `TermOver.replace` one of them;
* `TermOver.subterms` lists all subterms with their paths, in one walk that carries the path along;
  `TermOver.at?` looks one up. -/

namespace GivenClause

/-- A first-order term with variables in `ν` and function symbols in `φ`. Constants are numbered
and kept apart from applications without arguments. -/
inductive TermOver (ν φ : Type) where
  /-- A variable. -/
  | var (v : ν)
  /-- A constant. -/
  | const (id : Nat)
  /-- A function symbol applied to arguments. -/
  | app (f : φ) (args : List (TermOver ν φ))
deriving Repr, Hashable

/-- A function symbol as it stands in a term. The arity is stored as given, so a term read from
outside may carry an arity that differs from its number of arguments. -/
structure FunctionSymbol where
  /-- Number of the symbol's name. -/
  id : Nat
  /-- Stored number of arguments. -/
  arity : UInt8
deriving DecidableEq, Repr, Hashable

/-- Terms of clauses: numbered variables, function symbols with a stored arity. -/
abbrev Term := TermOver Nat FunctionSymbol

/-- A position in a term: argument indices from the root. -/
abbrev Path := List Nat

namespace TermOver

variable {ν φ ν' φ' : Type}

/-! ## Induction and equality -/

/-- Induction on terms where the arguments of an application are covered member by member. -/
@[induction_eliminator]
theorem induction {motive : TermOver ν φ → Prop}
    (var : ∀ v, motive (.var v))
    (const : ∀ c, motive (.const c))
    (app : ∀ f args, (∀ a ∈ args, motive a) → motive (.app f args)) :
    ∀ t, motive t := by
  refine @TermOver.rec ν φ motive (fun ts => ∀ a ∈ ts, motive a) var const app ?_ ?_
  · simp
  · intro head tail ihHead ihTail a ha
    rcases List.mem_cons.1 ha with rfl | h
    · exact ihHead
    · exact ihTail a h

section Equality

variable [DecidableEq ν] [DecidableEq φ]

mutual

/-- Whether two terms are equal. The arguments are looked at only up to the first that differs. -/
def beq : TermOver ν φ → TermOver ν φ → Bool
  | .var v, .var w => v = w
  | .const c, .const d => c = d
  | .app f ss, .app g ts => f = g && beqList ss ts
  | .var _, .const _ | .var _, .app _ _ | .const _, .var _ | .const _, .app _ _
  | .app _ _, .var _ | .app _ _, .const _ => false

/-- Whether two argument lists are equal. -/
def beqList : List (TermOver ν φ) → List (TermOver ν φ) → Bool
  | [], [] => true
  | s :: ss, t :: ts => beq s t && beqList ss ts
  | [], _ :: _ | _ :: _, [] => false

end

theorem beqList_iff {ss ts : List (TermOver ν φ)} (h : ∀ s ∈ ss, ∀ t, beq s t ↔ s = t) :
    beqList ss ts ↔ ss = ts := by
  induction ss generalizing ts with
  | nil => cases ts <;> simp [beqList]
  | cons s ss ih =>
    cases ts with
    | nil => simp [beqList]
    | cons t ts =>
      simp [beqList, h s List.mem_cons_self, ih fun u hu => h u (List.mem_cons_of_mem s hu)]

theorem beq_iff (s t : TermOver ν φ) : beq s t ↔ s = t := by
  induction s using TermOver.induction generalizing t with
  | var v => cases t <;> simp [beq]
  | const c => cases t <;> simp [beq]
  | app f args ih => cases t <;> simp [beq, beqList_iff ih]

instance : DecidableEq (TermOver ν φ) := fun s t => decidable_of_iff _ (beq_iff s t)

end Equality

/-! ## Measures -/

/-- Whether the term is a variable. -/
def isVar : TermOver ν φ → Bool
  | .var _ => true
  | _ => false

mutual

/-- Number of symbol and variable occurrences. -/
def size : TermOver ν φ → Nat
  | .var _ => 1
  | .const _ => 1
  | .app _ args => 1 + sizeList args

/-- Number of symbol and variable occurrences in an argument list. -/
def sizeList : List (TermOver ν φ) → Nat
  | [] => 0
  | t :: ts => t.size + sizeList ts

end

theorem size_pos (t : TermOver ν φ) : 0 < t.size := by
  cases t with
  | var _ => exact Nat.one_pos
  | const _ => exact Nat.one_pos
  | app _ args =>
    rw [size]
    omega

mutual

/-- The variable occurrences of a term from left to right, in front of `tail`. -/
def varOccurrencesOnto : TermOver ν φ → (tail : List ν) → List ν
  | .var v, tail => v :: tail
  | .const _, tail => tail
  | .app _ args, tail => varOccurrencesListOnto args tail

/-- The variable occurrences of an argument list from left to right, in front of `tail`. -/
def varOccurrencesListOnto : List (TermOver ν φ) → (tail : List ν) → List ν
  | [], tail => tail
  | t :: ts, tail => t.varOccurrencesOnto (varOccurrencesListOnto ts tail)

end

/-- Variable occurrences from left to right, repetitions included. -/
def varOccurrences (t : TermOver ν φ) : List ν :=
  t.varOccurrencesOnto []

theorem varOccurrencesListOnto_eq_flatMap (ts : List (TermOver ν φ)) (tail : List ν)
    (h : ∀ t ∈ ts, ∀ tail, t.varOccurrencesOnto tail = t.varOccurrences ++ tail) :
    varOccurrencesListOnto ts tail = ts.flatMap varOccurrences ++ tail := by
  induction ts with
  | nil => rfl
  | cons t ts ih =>
    rw [varOccurrencesListOnto, h t List.mem_cons_self,
      ih fun u hu => h u (List.mem_cons_of_mem t hu), List.flatMap_cons, List.append_assoc]

theorem varOccurrencesOnto_eq_append (t : TermOver ν φ) (tail : List ν) :
    t.varOccurrencesOnto tail = t.varOccurrences ++ tail := by
  induction t using TermOver.induction generalizing tail with
  | var v => rfl
  | const c => rfl
  | app f args ih =>
    simp only [varOccurrences, varOccurrencesOnto]
    rw [varOccurrencesListOnto_eq_flatMap args tail ih,
      varOccurrencesListOnto_eq_flatMap args [] ih, List.append_nil]

@[simp] theorem varOccurrences_var (v : ν) : (var v : TermOver ν φ).varOccurrences = [v] := rfl

@[simp] theorem varOccurrences_const (c : Nat) : (const c : TermOver ν φ).varOccurrences = [] := rfl

@[simp] theorem varOccurrences_app (f : φ) (args : List (TermOver ν φ)) :
    (app f args).varOccurrences = args.flatMap varOccurrences := by
  rw [varOccurrences, varOccurrencesOnto, varOccurrencesListOnto_eq_flatMap args [] fun t _ =>
    t.varOccurrencesOnto_eq_append, List.append_nil]

/-- Whether no variable occurs. -/
def isGround (t : TermOver ν φ) : Bool :=
  t.varOccurrences.isEmpty

/-- How often `v` occurs. -/
def occurrences [DecidableEq ν] (v : ν) (t : TermOver ν φ) : Nat :=
  t.varOccurrences.count v

/-! ## Renaming and replacing -/

mutual

/-- Renames variables by `fv`. A function symbol is renamed by `ff`, which also sees the number of
arguments it is applied to. -/
def map (fv : ν → ν') (ff : φ → Nat → φ') : TermOver ν φ → TermOver ν' φ'
  | .var v => .var (fv v)
  | .const c => .const c
  | .app f args => .app (ff f args.length) (mapList fv ff args)

/-- Renames the members of an argument list. -/
def mapList (fv : ν → ν') (ff : φ → Nat → φ') : List (TermOver ν φ) → List (TermOver ν' φ')
  | [] => []
  | t :: ts => t.map fv ff :: mapList fv ff ts

end

theorem mapList_eq_map (fv : ν → ν') (ff : φ → Nat → φ') (ts : List (TermOver ν φ)) :
    mapList fv ff ts = ts.map (map fv ff) := by
  induction ts with
  | nil => rfl
  | cons t ts ih => simp [mapList, ih]

mutual

/-- Replaces every variable `v` by the term `σ v`. -/
def bind (σ : ν → TermOver ν' φ) : TermOver ν φ → TermOver ν' φ
  | .var v => σ v
  | .const c => .const c
  | .app f args => .app f (bindList σ args)

/-- Replaces every variable in an argument list. -/
def bindList (σ : ν → TermOver ν' φ) : List (TermOver ν φ) → List (TermOver ν' φ)
  | [] => []
  | t :: ts => t.bind σ :: bindList σ ts

end

theorem bindList_eq_map (σ : ν → TermOver ν' φ) (ts : List (TermOver ν φ)) :
    bindList σ ts = ts.map (bind σ) := by
  induction ts with
  | nil => rfl
  | cons t ts ih => simp [bindList, ih]

/-- Replaces every occurrence of the variable `v` by the term `u`. -/
def replace [DecidableEq ν] (v : ν) (u t : TermOver ν φ) : TermOver ν φ :=
  t.bind fun w => if w = v then u else .var w

/-! ## Subterms -/

mutual

/-- All subterms of a term that stands at `path`, in preorder, each with its own path. -/
def walk (path : Path) : TermOver ν φ → List (Path × TermOver ν φ)
  | .var v => [(path, .var v)]
  | .const c => [(path, .const c)]
  | .app f args => (path, .app f args) :: walkFrom path 0 args

/-- The subterms of arguments of what stands at `path`, the first of which has index `i`. -/
def walkFrom (path : Path) (i : Nat) : List (TermOver ν φ) → List (Path × TermOver ν φ)
  | [] => []
  | t :: ts => t.walk (path ++ [i]) ++ walkFrom path (i + 1) ts

end

/-- All subterms in preorder, each with the path that leads to it. -/
def subterms (t : TermOver ν φ) : List (Path × TermOver ν φ) :=
  t.walk []

/-- The subterm at a path, `none` when the path leaves the term. -/
def at? : TermOver ν φ → Path → Option (TermOver ν φ)
  | t, [] => some t
  | .app _ args, i :: path =>
    match args[i]? with
    | some arg => arg.at? path
    | none => none
  | .var _, _ :: _ => none
  | .const _, _ :: _ => none

@[simp] theorem at?_nil (t : TermOver ν φ) : t.at? [] = some t := by
  cases t <;> rfl

end TermOver

/-! ## Terms of clauses -/

/-- A function applied to arguments. The stored arity is the number of arguments, which an eight-bit
field keeps only modulo 256. -/
def Term.apply (f : Nat) (args : List Term) : Term :=
  .app ⟨f, args.length.toUInt8⟩ args

/-- Renames variables and keeps every symbol with its stored arity. -/
def Term.mapVars (f : Nat → Nat) (t : Term) : Term :=
  t.map f fun symbol _ => symbol

/-- Every application stores the number of its arguments, modulo 256. -/
def Term.WellFormed (t : Term) : Prop :=
  ∀ e ∈ t.subterms, ∀ f args, e.2 = .app f args → f.arity = args.length.toUInt8

end GivenClause
