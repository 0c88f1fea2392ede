import Mathlib.Data.List.Nodup
import Mathlib.Logic.Function.Basic
import GivenClause.Order.Settings
import GivenClause.Proofs.Data.Lists

/-! # Settings by name

Names are numbered once and for all: within a table the numbers are dense, follow the order in which names were
first met, and go back to the name they were given to. Settings by name therefore reach exactly the symbols that
have these names when the ordering is made. Different names never stand for the same symbol, so no setting
overwrites another and the order in which settings are gone through does not matter. A name may stand for a
constant and a function at once; then it sets both.

* `NameTable.find?_eq_some_iff`: a number is found under a name exactly when it has that name;
* `NameRecord` keeps names and numbers apart, and `NameRecord.Keeps` says that both sides are those of a table;
* `SymbolCall` and `Symbols.performAll` are the runs that number names;
* `lookup_resolveNames` and `nodup_resolveNames`: what settings by name give to symbols;
* `writeNames` writes settings one by one, with `lookup_resolveNames_of_perm` for any order;
* `Kbo.ofSettings_exact` collects what holds after every run. -/

namespace GivenClause

open InsertionOrder

/-! ## Numbers of names -/

namespace NameTable

variable {table : NameTable}

/-- What is found under a name is its number, and only names of the table are found. -/
theorem find?_eq_some_iff_number {name : String} {id : Nat} :
    table.find? name = some id ↔ name ∈ table.names ∧ id = table.number name := by
  rw [find?, number, List.idxOf_eq_getD_idxOf?, ← List.isSome_idxOf?]
  cases table.names.idxOf? name <;> simp [eq_comm]

/-- A number is found under a name exactly when it has that name. -/
theorem find?_eq_some_iff (hnodup : table.names.Nodup) {name : String} {id : Nat} :
    table.find? name = some id ↔ table.names[id]? = some name := by
  rw [find?, List.idxOf?_eq_some_iff, List.getElem?_eq_some_iff]
  refine exists_congr fun hid => ⟨And.left, fun hname => ⟨hname, fun j hj hother => ?_⟩⟩
  -- no name stands at two positions
  have heq := (hnodup.getElem_inj_iff).1 (hother.trans hname.symm)
  omega

theorem getElem?_names_eq_some_iff {name : String} {id : Nat} :
    table.names[id]? = some name ↔ id < table.size ∧ table.name id = name := by
  rw [NameTable.name, size, List.getElem?_eq_some_iff]
  constructor
  · rintro ⟨hid, rfl⟩
    exact ⟨hid, by rw [List.getElem?_eq_getElem hid, Option.getD_some]⟩
  · rintro ⟨hid, hname⟩
    exact ⟨hid, by rwa [List.getElem?_eq_getElem hid, Option.getD_some] at hname⟩

/-- A new name gets the next number, and no other number changes. -/
theorem find?_intern_of_new {name : String} (hnew : name ∉ table.names) :
    (table.intern name).find? = Function.update table.find? name (some table.size) := by
  funext other
  rw [intern, insertNew_of_not_mem hnew]
  by_cases hother : other = name
  · subst hother
    rw [Function.update_self, find?_eq_some_iff_number, number, List.idxOf_append_of_notMem hnew,
      List.idxOf_cons_self, Nat.add_zero]
    exact ⟨List.mem_append_right _ List.mem_cons_self, rfl⟩
  · rw [Function.update_of_ne hother]
    refine Option.ext fun id => ?_
    rw [find?_eq_some_iff_number, find?_eq_some_iff_number, List.mem_append,
      or_iff_left (by simpa using hother)]
    refine and_congr_right fun hmem => ?_
    rw [number, number, List.idxOf_append_of_mem hmem]

/-- The numbers of a table that was filled with names one after the other: a name has as its number how many
different names came before it. -/
theorem find?_insertAll_iff {names : List String} {name : String} {id : Nat} :
    find? ⟨insertAll [] names⟩ name = some id ↔ ∃ before after,
      names = before ++ name :: after ∧ name ∉ before ∧ id = before.toFinset.card := by
  rw [find?_eq_some_iff_number, mem_insertAll, number]
  constructor
  · rintro ⟨hmem, rfl⟩
    obtain ⟨before, after, rfl, hfirst⟩ := List.eq_append_cons_of_mem (hmem.resolve_left List.not_mem_nil)
    exact ⟨before, after, rfl, hfirst, idxOf_insertAll_nil hfirst after⟩
  · rintro ⟨before, after, rfl, hfirst, rfl⟩
    exact ⟨Or.inr (List.mem_append_right _ List.mem_cons_self), (idxOf_insertAll_nil hfirst after).symm⟩

end NameTable

/-! ## Names and numbers kept apart -/

/-- A table that is kept on two sides: the names in a list, and under each name what is written as its number. -/
structure NameRecord where
  /-- The names, in the order in which they were first met. -/
  names : List String := []
  /-- What is written under a name. -/
  numbers : String → Option Nat := fun _ => none

namespace NameRecord

/-- Gives the number that is written under a name. Where there is none, the name is added to the list and its
position is written under it. -/
def intern (record : NameRecord) (name : String) : Nat × NameRecord :=
  match record.numbers name with
  | some id => (id, record)
  | none =>
    let id := record.names.length
    (id, ⟨record.names ++ [name], Function.update record.numbers name (some id)⟩)

/-- The record after names were met one after the other. -/
def internAll (record : NameRecord) : List String → NameRecord
  | [] => record
  | name :: names => (record.intern name).2.internAll names

/-- Both sides of a record say what a table says. -/
structure Keeps (record : NameRecord) (table : NameTable) : Prop where
  /-- The names are those of the table. -/
  names_eq : record.names = table.names
  /-- What is written under a name is its number in the table. -/
  numbers_eq : ∀ name, record.numbers name = table.find? name

theorem keeps_empty : Keeps {} {} :=
  ⟨rfl, fun _ => rfl⟩

/-- A call hands out the number in the table, and both sides go on saying what the table says. -/
theorem Keeps.intern {record : NameRecord} {table : NameTable} (h : record.Keeps table) (name : String) :
    (record.intern name).1 = (table.intern name).number name ∧
      (record.intern name).2.Keeps (table.intern name) := by
  rw [NameRecord.intern, h.numbers_eq]
  cases hfound : table.find? name with
  | some id =>
    obtain ⟨hmem, rfl⟩ := NameTable.find?_eq_some_iff_number.1 hfound
    rw [NameTable.intern, insertNew_of_mem hmem]
    exact ⟨rfl, h⟩
  | none =>
    have hnew : name ∉ table.names := List.idxOf?_eq_none_iff.1 hfound
    have hsize : record.names.length = table.size := congrArg List.length h.names_eq
    have hnumber : (table.intern name).find? name = some record.names.length := by
      rw [NameTable.find?_intern_of_new hnew, Function.update_self, hsize]
    refine ⟨(NameTable.find?_eq_some_iff_number.1 hnumber).2, ?_, fun other => ?_⟩
    · rw [NameTable.intern, insertNew_of_not_mem hnew, ← h.names_eq]
    · rw [NameTable.find?_intern_of_new hnew, ← hsize, ← funext h.numbers_eq]

theorem Keeps.internAll {record : NameRecord} {table : NameTable} (h : record.Keeps table)
    (names : List String) : (record.internAll names).Keeps ⟨insertAll table.names names⟩ := by
  induction names generalizing record table with
  | nil => exact h
  | cons name names ih => exact ih (h.intern name).2

end NameRecord

/-! ## Runs that number names -/

/-- The two tables of names. -/
inductive SymbolKind where
  /-- The table of constants. -/
  | constant
  /-- The table of functions. -/
  | function
deriving DecidableEq, Repr

/-- The symbol with a number in one of the tables. -/
def SymbolKind.symbol : SymbolKind → Nat → Symbol
  | .constant => .constant
  | .function => .function

/-- A call that numbers a name in one of the tables. -/
structure SymbolCall where
  /-- The table. -/
  kind : SymbolKind
  /-- The name. -/
  name : String
deriving DecidableEq, Repr

/-- The names that calls give to one of the tables, in the order of the calls. -/
def SymbolCall.names (kind : SymbolKind) (calls : List SymbolCall) : List String :=
  (calls.filter fun call => call.kind = kind).map SymbolCall.name

namespace Symbols

/-- The table of one kind. -/
def table (symbols : Symbols) : SymbolKind → NameTable
  | .constant => symbols.constants
  | .function => symbols.functions

/-- The tables after a call. -/
def perform (symbols : Symbols) (call : SymbolCall) : Symbols :=
  match call.kind with
  | .constant => symbols.internConstant call.name
  | .function => symbols.internFunction call.name

/-- The tables after calls. -/
def performAll (symbols : Symbols) : List SymbolCall → Symbols
  | [] => symbols
  | call :: calls => (symbols.perform call).performAll calls

/-- A call adds its name to its own table and leaves the other one as it is. -/
theorem table_perform (symbols : Symbols) (call : SymbolCall) (kind : SymbolKind) :
    (symbols.perform call).table kind =
      if call.kind = kind then (symbols.table kind).intern call.name else symbols.table kind := by
  obtain ⟨called, name⟩ := call
  cases called <;> cases kind <;> rfl

/-- A run adds the names of its calls to the tables. -/
theorem names_performAll (symbols : Symbols) (calls : List SymbolCall) (kind : SymbolKind) :
    ((symbols.performAll calls).table kind).names =
      insertAll (symbols.table kind).names (SymbolCall.names kind calls) := by
  induction calls generalizing symbols with
  | nil => rfl
  | cons call calls ih =>
    rw [performAll, ih, table_perform, SymbolCall.names, SymbolCall.names]
    by_cases hkind : call.kind = kind
    · rw [if_pos hkind, List.filter_cons_of_pos (by simpa using hkind), List.map_cons, insertAll_cons]
      rfl
    · rw [if_neg hkind, List.filter_cons_of_neg (by simpa using hkind)]

/-- From empty tables on, a table holds the names of its calls in the order in which they were first given. -/
theorem table_performAll (calls : List SymbolCall) (kind : SymbolKind) :
    (({} : Symbols).performAll calls).table kind = ⟨insertAll [] (SymbolCall.names kind calls)⟩ := by
  have hnames := names_performAll {} calls kind
  cases kind <;> exact congrArg NameTable.mk hnames

/-- No run makes a table have a name twice. -/
theorem nodup_performAll {symbols : Symbols} {kind : SymbolKind} (h : (symbols.table kind).names.Nodup)
    (calls : List SymbolCall) : ((symbols.performAll calls).table kind).names.Nodup := by
  rw [names_performAll]
  exact nodup_insertAll _ h

/-- A run leaves the names of a table where they are. -/
theorem getElem?_performAll {symbols : Symbols} {kind : SymbolKind} {id : Nat} {name : String}
    (h : (symbols.table kind).names[id]? = some name) (calls : List SymbolCall) :
    ((symbols.performAll calls).table kind).names[id]? = some name := by
  obtain ⟨hid, rfl⟩ := List.getElem?_eq_some_iff.1 h
  rw [names_performAll]
  exact List.prefix_iff_getElem?.1 (isPrefix_insertAll _ _) id hid

/-- A name that is numbered by a run did not take the number of another name. -/
theorem getElem?_eq_none_of_performAll {symbols : Symbols} {kind : SymbolKind} {id : Nat} {name : String}
    {calls : List SymbolCall} (hnew : (symbols.table kind).names[id]? ≠ some name)
    (h : ((symbols.performAll calls).table kind).names[id]? = some name) :
    (symbols.table kind).names[id]? = none := by
  cases hold : (symbols.table kind).names[id]? with
  | none => rfl
  | some other =>
    rw [getElem?_performAll hold calls] at h
    exact absurd (hold.trans h) hnew

/-- The symbols of a name are those that have it. -/
theorem mem_named {symbols : Symbols} {kind : SymbolKind} {id : Nat} {name : String} :
    kind.symbol id ∈ symbols.named name ↔ (symbols.table kind).find? name = some id := by
  cases kind <;> simp [named, SymbolKind.symbol, table]

theorem nodup_named (symbols : Symbols) (name : String) : (symbols.named name).Nodup := by
  rw [named]
  cases symbols.functions.find? name <;> cases symbols.constants.find? name <;> simp

end Symbols

/-! ## Settings of symbols -/

section Settings

variable {symbols : Symbols} (hnodup : ∀ kind, (symbols.table kind).names.Nodup)

include hnodup

/-- A symbol gets the setting that is listed under its name; a number without a name gets none. -/
theorem lookup_resolveNames (settings : List (String × UInt64)) (kind : SymbolKind) (id : Nat) :
    (resolveNames symbols settings).lookup (kind.symbol id) =
      (symbols.table kind).names[id]?.bind fun name => settings.lookup name := by
  induction settings with
  | nil => cases (symbols.table kind).names[id]? <;> rfl
  | cons e settings ih =>
    have hsplit : resolveNames symbols (e :: settings) =
        (symbols.named e.1).map (fun symbol => (symbol, e.2)) ++ resolveNames symbols settings := rfl
    have hhead : kind.symbol id ∈ symbols.named e.1 ↔ (symbols.table kind).names[id]? = some e.1 :=
      Symbols.mem_named.trans (NameTable.find?_eq_some_iff (hnodup kind))
    rw [hsplit, List.lookup_append, lookup_map_pair, ih]
    simp only [hhead]
    cases (symbols.table kind).names[id]? with
    | none => rfl
    | some name =>
      rw [Option.bind_some, Option.bind_some, List.lookup_cons]
      by_cases hname : name = e.1
      · simp [hname]
      · simp [hname, beq_false_of_ne hname]

/-- No symbol gets two settings when no name does: different names stand for different symbols. -/
theorem nodup_resolveNames {settings : List (String × UInt64)} (hsettings : (settings.map (·.1)).Nodup) :
    ((resolveNames symbols settings).map (·.1)).Nodup := by
  have hsymbols : (resolveNames symbols settings).map (·.1) =
      (settings.map (·.1)).flatMap symbols.named := by
    rw [resolveNames, List.map_flatMap, List.flatMap_map]
    refine List.flatMap_congr fun e _ => ?_
    rw [List.map_map]
    exact List.map_id _
  rw [hsymbols, List.nodup_flatMap]
  refine ⟨fun name _ => symbols.nodup_named name, hsettings.imp fun {name other} hne => ?_⟩
  intro symbol hname hother
  obtain ⟨kind, id, rfl⟩ : ∃ kind id, symbol = SymbolKind.symbol kind id := by
    cases symbol with
    | constant id => exact ⟨.constant, id, rfl⟩
    | function id => exact ⟨.function, id, rfl⟩
  rw [Symbols.mem_named, NameTable.find?_eq_some_iff (hnodup kind)] at hname hother
  exact hne (Option.some.inj (hname.symm.trans hother))

end Settings

/-- What is written under symbols when settings are gone through one by one and each writes its value under the
symbols of its name, over what was there. -/
def writeNames (symbols : Symbols) (settings : List (String × UInt64)) : Symbol → Option UInt64 :=
  settings.foldl
    (fun written e =>
      (symbols.named e.1).foldl (fun written symbol => Function.update written symbol (some e.2)) written)
    fun _ => none

/-- Where no key is written twice, the last value under a key is the first. -/
theorem foldl_update_eq_lookup {α β : Type} [DecidableEq α] {entries : List (α × β)}
    (hnodup : (entries.map (·.1)).Nodup) (start : α → Option β) (key : α) :
    entries.foldl (fun (written : α → Option β) e => Function.update written e.1 (some e.2)) start key =
      (entries.lookup key).or (start key) := by
  induction entries generalizing start with
  | nil => rfl
  | cons e entries ih =>
    obtain ⟨hnew, hnodup⟩ := List.nodup_cons.1 hnodup
    rw [List.foldl_cons, ih hnodup, List.lookup_cons]
    by_cases hkey : key = e.1
    · subst hkey
      have hnone : entries.lookup e.1 = none := by
        rw [← Option.not_isSome_iff_eq_none, isSome_lookup_iff]
        exact hnew
      simp [hnone]
    · simp [beq_false_of_ne hkey, Function.update_of_ne hkey]

/-- Writing settings in turn gives the settings of symbols. -/
theorem writeNames_eq_lookup {symbols : Symbols} {settings : List (String × UInt64)}
    (hnodup : ((resolveNames symbols settings).map (·.1)).Nodup) (symbol : Symbol) :
    writeNames symbols settings symbol = (resolveNames symbols settings).lookup symbol := by
  have hflat : writeNames symbols settings = (resolveNames symbols settings).foldl
      (fun (written : Symbol → Option UInt64) e => Function.update written e.1 (some e.2))
      fun _ => none := by
    rw [writeNames, resolveNames, List.foldl_flatMap]
    simp only [List.foldl_map]
  rw [hflat, foldl_update_eq_lookup hnodup, Option.or_none]

/-- The order in which settings are listed or written does not matter when no name is listed twice. -/
theorem lookup_resolveNames_of_perm {symbols : Symbols}
    (hnodup : ∀ kind, (symbols.table kind).names.Nodup) {settings reordered : List (String × UInt64)}
    (hsettings : (settings.map (·.1)).Nodup) (hperm : reordered.Perm settings) (symbol : Symbol) :
    (resolveNames symbols reordered).lookup symbol = (resolveNames symbols settings).lookup symbol ∧
      writeNames symbols reordered symbol = (resolveNames symbols settings).lookup symbol := by
  have hresolved := nodup_resolveNames hnodup ((hperm.map _).nodup_iff.2 hsettings)
  have hlookup := lookup_eq_of_perm (hperm.flatMap_right _) hresolved symbol
  exact ⟨hlookup, (writeNames_eq_lookup hresolved symbol).trans hlookup⟩

/-- No name is listed twice. -/
structure KboSettings.Distinct (settings : KboSettings) : Prop where
  /-- No weight is given twice. -/
  weights : (settings.weights.map (·.1)).Nodup
  /-- No precedence is given twice. -/
  precedences : (settings.precedences.map (·.1)).Nodup

/-- **Settings by name reach exactly the symbols with these names.** After every run that numbers names, in each
of the two tables:

* a name has as its number how many different names were there before it, and there are as many numbers as
  different names;
* a number is found under a name exactly when the name is found under the number, and later calls change
  neither;
* names in a list and numbers written under the names say the same, and a call hands out the number that its
  name has from then on.

An ordering that is made from settings after the run

* gives every symbol with a number the weight and the precedence listed under its own name, or none;
* gives nothing to a symbol that is numbered later, even when its name is listed;
* gives no symbol two weights or two precedences, and is the same whatever order the settings are listed in or
  written in. -/
theorem Kbo.ofSettings_exact {calls : List SymbolCall} {symbols : Symbols}
    (hrun : ({} : Symbols).performAll calls = symbols) {settings : KboSettings}
    (hsettings : settings.Distinct) :
    (∀ kind,
      (∀ name id, (symbols.table kind).find? name = some id ↔ ∃ before after,
        SymbolCall.names kind calls = before ++ name :: after ∧ name ∉ before ∧
          id = before.toFinset.card) ∧
      (symbols.table kind).size = (SymbolCall.names kind calls).toFinset.card ∧
      (∀ name id, (symbols.table kind).find? name = some id ↔
        id < (symbols.table kind).size ∧ (symbols.table kind).name id = name) ∧
      (NameRecord.internAll {} (SymbolCall.names kind calls)).Keeps (symbols.table kind) ∧
      (∀ name id, ((symbols.perform ⟨kind, name⟩).table kind).find? name = some id ↔
        id = ((NameRecord.internAll {} (SymbolCall.names kind calls)).intern name).1) ∧
      ∀ more name id, (symbols.table kind).find? name = some id →
        ((symbols.performAll more).table kind).find? name = some id ∧
        ((symbols.performAll more).table kind).name id = name) ∧
    (∀ kind id, id < (symbols.table kind).size →
      (ofSettings symbols settings).weights.lookup (kind.symbol id) =
        settings.weights.lookup ((symbols.table kind).name id) ∧
      (ofSettings symbols settings).precedences.lookup (kind.symbol id) =
        settings.precedences.lookup ((symbols.table kind).name id)) ∧
    (∀ kind more name id, (symbols.table kind).find? name = none →
      ((symbols.performAll more).table kind).find? name = some id →
        (ofSettings symbols settings).weights.lookup (kind.symbol id) = none ∧
        (ofSettings symbols settings).precedences.lookup (kind.symbol id) = none) ∧
    (((ofSettings symbols settings).weights.map (·.1)).Nodup ∧
      ((ofSettings symbols settings).precedences.map (·.1)).Nodup) ∧
    ∀ reordered : KboSettings, reordered.weights.Perm settings.weights →
      reordered.precedences.Perm settings.precedences → ∀ symbol,
        (ofSettings symbols reordered).weights.lookup symbol =
          (ofSettings symbols settings).weights.lookup symbol ∧
        writeNames symbols reordered.weights symbol =
          (ofSettings symbols settings).weights.lookup symbol ∧
        (ofSettings symbols reordered).precedences.lookup symbol =
          (ofSettings symbols settings).precedences.lookup symbol ∧
        writeNames symbols reordered.precedences symbol =
          (ofSettings symbols settings).precedences.lookup symbol := by
  subst hrun
  set symbols := ({} : Symbols).performAll calls with hsymbols
  have hnodup : ∀ kind, (symbols.table kind).names.Nodup := by
    intro kind
    rw [hsymbols, Symbols.table_performAll]
    exact nodup_insertAll _ List.nodup_nil
  have hlater := fun kind more => Symbols.nodup_performAll (hnodup kind) more
  have hrecord : ∀ kind,
      (NameRecord.internAll {} (SymbolCall.names kind calls)).Keeps (symbols.table kind) := by
    intro kind
    rw [hsymbols, Symbols.table_performAll]
    exact NameRecord.keeps_empty.internAll _
  refine ⟨fun kind => ⟨fun name id => ?_, ?_, fun name id => ?_, hrecord kind, fun name id => ?_,
      fun more name id hfound => ?_⟩,
    fun kind id hid => ?_, fun kind more name id hnew hfound => ?_,
    ⟨nodup_resolveNames hnodup hsettings.weights, nodup_resolveNames hnodup hsettings.precedences⟩,
    fun reordered hweights hprecedences symbol => ?_⟩
  · rw [hsymbols, Symbols.table_performAll]
    exact NameTable.find?_insertAll_iff
  · rw [hsymbols, Symbols.table_performAll]
    exact length_insertAll_nil _
  · exact (NameTable.find?_eq_some_iff (hnodup kind)).trans NameTable.getElem?_names_eq_some_iff
  · rw [NameTable.find?_eq_some_iff_number, Symbols.table_perform, if_pos rfl,
      ((hrecord kind).intern name).1]
    exact and_iff_right (mem_insertNew.2 (Or.inr rfl))
  · have hname := Symbols.getElem?_performAll ((NameTable.find?_eq_some_iff (hnodup kind)).1 hfound) more
    exact ⟨(NameTable.find?_eq_some_iff (hlater kind more)).2 hname,
      (NameTable.getElem?_names_eq_some_iff.1 hname).2⟩
  · have hname := NameTable.getElem?_names_eq_some_iff.2 ⟨hid, rfl⟩
    rw [ofSettings, lookup_resolveNames hnodup, lookup_resolveNames hnodup, hname]
    exact ⟨rfl, rfl⟩
  · -- the number was not in use when the settings were resolved
    have hnone : (symbols.table kind).names[id]? = none := by
      refine Symbols.getElem?_eq_none_of_performAll (fun hold => ?_)
        ((NameTable.find?_eq_some_iff (hlater kind more)).1 hfound)
      rw [(NameTable.find?_eq_some_iff (hnodup kind)).2 hold] at hnew
      cases hnew
    rw [ofSettings, lookup_resolveNames hnodup, lookup_resolveNames hnodup, hnone]
    exact ⟨rfl, rfl⟩
  · obtain ⟨hweight, hwritten⟩ := lookup_resolveNames_of_perm hnodup hsettings.weights hweights symbol
    exact ⟨hweight, hwritten, lookup_resolveNames_of_perm hnodup hsettings.precedences hprecedences symbol⟩

/-- The name `f` stands for the second constant and for the first function, and its weight goes to both. The
function `g` is named too late for its weight. -/
theorem Kbo.ofSettings_exact_overloaded :
    let calls : List SymbolCall :=
      [⟨.constant, "a"⟩, ⟨.function, "f"⟩, ⟨.constant, "f"⟩, ⟨.constant, "a"⟩]
    let symbols := ({} : Symbols).performAll calls
    let settings : KboSettings := { weights := [("g", 7), ("f", 5)], precedences := [("a", 2)] }
    let later := symbols.performAll [⟨.function, "g"⟩]
    settings.Distinct ∧
      symbols.constants.find? "f" = some 1 ∧ symbols.functions.find? "f" = some 0 ∧
      (ofSettings symbols settings).weights.lookup (.constant 1) = some 5 ∧
      (ofSettings symbols settings).weights.lookup (.function 0) = some 5 ∧
      later.functions.find? "g" = some 1 ∧
      (ofSettings symbols settings).weights.lookup (.function 1) = none := by
  intro calls symbols settings later
  have hsettings : settings.Distinct := ⟨by decide, by decide⟩
  obtain ⟨hnumbers, hgiven, hlate, -⟩ := ofSettings_exact (rfl : ({} : Symbols).performAll calls = symbols)
    hsettings
  have hconstant : symbols.constants.find? "f" = some 1 :=
    ((hnumbers .constant).1 "f" 1).2 ⟨["a"], ["a"], rfl, by decide, by decide⟩
  have hfunction : symbols.functions.find? "f" = some 0 :=
    ((hnumbers .function).1 "f" 0).2 ⟨[], [], rfl, by decide, by decide⟩
  have hnew : later.functions.find? "g" = some 1 := by decide
  refine ⟨hsettings, hconstant, hfunction, ?_, ?_, hnew, ?_⟩
  · obtain ⟨hid, hname⟩ := ((hnumbers .constant).2.2.1 "f" 1).1 hconstant
    refine (hgiven .constant 1 hid).1.trans ?_
    rw [hname]
    decide
  · obtain ⟨hid, hname⟩ := ((hnumbers .function).2.2.1 "f" 0).1 hfunction
    refine (hgiven .function 0 hid).1.trans ?_
    rw [hname]
    decide
  · exact (hlate .function _ "g" 1 (by decide) hnew).1

end GivenClause
