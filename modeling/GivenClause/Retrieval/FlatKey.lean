import GivenClause.Term.Text

/-! # Terms as key sequences

A term is written as the sequence of its symbols in preorder. Stored variables all become the same key
and stand for any term; the variables of a term that looks for generalizations keep their number and
stand for themselves.

* `Term.storedKeys` and `Term.queryKeys` write a term;
* `skipTerms` drops complete terms from a key sequence by the stored arities, `termsLength` tells how
  many keys they take up. -/

namespace GivenClause

/-- One symbol of a term written in preorder. -/
inductive FlatKey where
  /-- A function symbol with its stored arity. -/
  | function (id : Nat) (arity : UInt8)
  /-- A constant. -/
  | constant (id : Nat)
  /-- A variable that stands for any term. -/
  | star
  /-- A variable that stands for itself. -/
  | rigid (id : Nat)
deriving DecidableEq, Repr

namespace FlatKey

/-- By what keys are ordered, lexicographically: functions, constants, the star, variables; within a
kind by number, then arity. -/
def rank : FlatKey → List Nat
  | .function id arity => [0, id, arity.toNat]
  | .constant id => [1, id]
  | .star => [2]
  | .rigid id => [3, id]

instance : LT FlatKey := ⟨fun a b => a.rank < b.rank⟩

instance : DecidableLT FlatKey := fun a b => inferInstanceAs (Decidable (a.rank < b.rank))

/-- How many complete terms must follow a key. -/
def arity : FlatKey → Nat
  | .function _ arity => arity.toNat
  | _ => 0

/-- A key as text. -/
def text : FlatKey → String
  | .function id arity => functionText id ++ "/" ++ toString arity.toNat
  | .constant id => constantText id
  | .star => "*"
  | .rigid id => variableText id

end FlatKey

/-- A key sequence as text. -/
def keysText (keys : List FlatKey) : String :=
  String.intercalate " " (keys.map FlatKey.text)

mutual

/-- A term in preorder with its variables written by `onVar`, in front of `tail`. -/
def Term.keysOnto (onVar : Nat → FlatKey) : Term → (tail : List FlatKey) → List FlatKey
  | .var x, tail => onVar x :: tail
  | .const c, tail => .constant c :: tail
  | .app f args, tail => .function f.id f.arity :: Term.keysListOnto onVar args tail

/-- Terms in preorder one after the other, in front of `tail`. -/
def Term.keysListOnto (onVar : Nat → FlatKey) : List Term → (tail : List FlatKey) → List FlatKey
  | [], tail => tail
  | t :: ts, tail => Term.keysOnto onVar t (Term.keysListOnto onVar ts tail)

end

/-- Terms one after the other are the members of the list one by one. -/
theorem Term.keysListOnto_eq_foldr (onVar : Nat → FlatKey) (ts : List Term)
    (tail : List FlatKey) :
    Term.keysListOnto onVar ts tail = ts.foldr (Term.keysOnto onVar) tail := by
  induction ts with
  | nil => rfl
  | cons t ts ih => rw [Term.keysListOnto, ih, List.foldr_cons]

/-- What follows a term does not change how it is written. -/
theorem Term.keysOnto_append (onVar : Nat → FlatKey) (t : Term) (front back : List FlatKey) :
    Term.keysOnto onVar t (front ++ back) = Term.keysOnto onVar t front ++ back := by
  induction t using TermOver.induction generalizing front with
  | var x => rfl
  | const c => rfl
  | app f args ih =>
    simp only [Term.keysOnto, Term.keysListOnto_eq_foldr, List.cons_append, List.cons.injEq,
      true_and]
    induction args with
    | nil => rfl
    | cons a args ihArgs =>
      rw [List.foldr_cons, ihArgs fun b hb => ih b (List.mem_cons_of_mem a hb),
        ih a List.mem_cons_self, List.foldr_cons]

/-- A term in preorder whose variables stand for any term. -/
def Term.storedKeys (t : Term) : List FlatKey :=
  Term.keysOnto (fun _ => .star) t []

/-- A term in preorder whose variables stand for themselves. -/
def Term.queryKeys (t : Term) : List FlatKey :=
  Term.keysOnto .rigid t []

/-- Drops `count` complete terms from the front, as far as the keys go. -/
def skipTerms : (count : Nat) → List FlatKey → List FlatKey
  | 0, keys => keys
  | _ + 1, [] => []
  | count + 1, key :: keys => skipTerms (count + key.arity) keys

/-- How many keys `count` complete terms take up, as far as the keys go. -/
def termsLength : (count : Nat) → List FlatKey → Nat
  | 0, _ => 0
  | _ + 1, [] => 0
  | count + 1, key :: keys => termsLength (count + key.arity) keys + 1

/-- Dropping complete terms drops as many keys as they take up. -/
theorem skipTerms_eq_drop (count : Nat) (keys : List FlatKey) :
    skipTerms count keys = keys.drop (termsLength count keys) := by
  induction keys generalizing count with
  | nil => cases count <;> simp [skipTerms]
  | cons key keys ih =>
    cases count with
    | zero => simp [skipTerms, termsLength]
    | succ count => simp [skipTerms, termsLength, ih]

/-- How many keys the term at a position takes up, zero past the end. -/
def subtermSize (keys : List FlatKey) (position : Nat) : Nat :=
  termsLength 1 (keys.drop position)

/-- The sizes of the terms at all positions, first to last, and zero for the end. -/
def subtermSizes : List FlatKey → List Nat
  | [] => [0]
  | key :: keys => termsLength 1 (key :: keys) :: subtermSizes keys

/-- The sizes at all positions, read off one by one. -/
theorem subtermSizes_eq_map (keys : List FlatKey) :
    subtermSizes keys = (List.range (keys.length + 1)).map (subtermSize keys) := by
  induction keys with
  | nil => simp [subtermSizes, subtermSize, termsLength]
  | cons key keys ih =>
    rw [subtermSizes, ih, List.length_cons, List.range_succ_eq_map (n := keys.length + 1)]
    simp [subtermSize, Function.comp_def]

end GivenClause
