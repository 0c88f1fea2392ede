import GivenClause.Json.Codec
import GivenClause.Literal.Text
import GivenClause.Search.Resolution
import GivenClause.Unify.Text

/-! # Reports in JSON

What a search reports: descriptions of terms and literals, clause records, the state of queues and
sets, index contents and counters. Counters are written in a fixed order of fields. -/

namespace GivenClause

open Json

/-! ## Terms, literals, clauses -/

/-- The measures of a term. -/
def Term.measuresJson (t : Term) : List (String × Json) :=
  [("is_variable", .bool t.isVar), ("is_ground", .bool t.isGround),
    ("variables", nats (InsertionOrder.insertAll [] t.varOccurrences)), ("weight", nat t.size)]

/-- The written forms of a term, its keys with the subterm size at each position and at the end, and
its subterms with their paths. -/
def Term.formsJson (symbols : Symbols) (t : Term) : List (String × Json) :=
  let term (t : Term) : Json := Json.text (Term.text symbols t)
  let keys := t.storedKeys
  [("text", term t), ("raw", Json.text (Term.rawText t)),
    ("flat_insert", Json.text (keysText keys)), ("flat_query", Json.text (keysText t.queryKeys)),
    ("sizes", nats (subtermSizes keys)),
    ("subterms", .array (t.subterms.map fun e => .array [nats e.1, term e.2]))]

/-- A description of a literal; its variables follow those already `seen`. -/
def Literal.describeJson (symbols : Symbols) (seen : List Nat) (lit : Literal) :
    List (String × Json) :=
  let term (t : Term) : Json := Json.text (Term.text symbols t)
  [("text", Json.text (lit.text symbols)), ("raw", Json.text lit.rawText),
    ("positive", .bool lit.isPositive), ("negative", .bool lit.isNegative),
    ("equation", .bool lit.isEquation), ("ground", .bool lit.isGround),
    ("weight", nat lit.weight), ("variables", nats (literalVariablesAfter seen [lit])),
    ("sides", .array (lit.sides.map fun s => .array [Json.text s.1.name, term s.2])),
    ("left", ofOption term (lit.side? .left)), ("right", ofOption term (lit.side? .right)),
    ("multiset", .array (lit.orderingTerms.map term)),
    ("complement", Json.text (lit.complement.text symbols)),
    ("complement_positive", .bool lit.complement.isPositive),
    ("involution", .bool (lit.complement.complement = lit)),
    ("features", nats (FeatureVector.of [lit]).counts)]

/-- The bindings of a substitution in the order of their variables. -/
def Substitution.toJson (symbols : Symbols) (σ : Substitution) : Json :=
  .array (σ.sortedBindings.map fun b => texts [b.1.text, ScopedTerm.text symbols b.2])

/-- A clause record. -/
def Clause.toJson (symbols : Symbols) (clause : Clause) : Json :=
  Json.record
    [("id", nat clause.id),
      ("text", text (clauseText symbols clause.literals)),
      ("raw", text (clauseRawText clause.literals)),
      ("selected", nats clause.selected.toList),
      ("flags", Codec.clauseFlags.encode clause.flags),
      ("ground", .bool clause.isGround),
      ("lemma", .bool clause.isLemma),
      ("persistent", .bool clause.isPersistent),
      ("weight", nat clause.weight),
      ("variables", nats clause.vars),
      ("parents", nats clause.parents),
      ("descendants", nats clause.descendants),
      ("provenance", Codec.provenance.encode clause.provenance),
      ("distance", ofOption nat clause.distance),
      ("epoch", nat clause.epoch),
      ("len", nat clause.length),
      ("empty", .bool clause.isEmpty),
      ("unit", .bool clause.isUnit),
      ("positive_count", nat clause.positiveCount),
      ("positive", nats clause.positiveLiterals.toList)]

/-! ## Counters -/

/-- Counters of the clause store. -/
def StoreStats.toJson (stats : StoreStats) : Json :=
  Json.record
    [("created", nat stats.created), ("hashcons_hits", nat stats.hits),
      ("oversized", nat stats.oversized)]

/-- Counters of the active set. -/
def ActiveStats.toJson (stats : ActiveStats) : Json :=
  Json.record
    [("size", nat stats.size), ("added", nat stats.added), ("removed", nat stats.removed),
      ("sup_into", nat stats.targets), ("sup_from", nat stats.rewriters),
      ("back_demod", nat stats.subterms), ("subsumption", nat stats.subsumption)]

/-- Counters of a passive set. -/
def PassiveStats.toJson (stats : PassiveStats) : Json :=
  Json.record
    [("size", nat stats.size), ("added", nat stats.added), ("selected", nat stats.selected),
      ("stale_dropped", nat stats.staleDropped), ("cleaned", nat stats.cleaned)]

/-- Counters of a search. -/
def SearchStats.toJson (stats : SearchStats) : Json :=
  Json.record
    [("clauses", stats.clauses.toJson), ("active", stats.active.toJson),
      ("passive", stats.passive.toJson), ("simpl_size", nat stats.rules),
      ("given", nat stats.given), ("incomplete", .bool stats.incomplete)]

/-- The size and the settings of a clause store. -/
def ClauseStore.summaryJson (store : ClauseStore) : List (String × Json) :=
  [("len", nat store.size), ("empty", .bool (store.size == 0)), ("epoch", nat store.epoch),
    ("incomplete", .bool store.incomplete), ("selector", text store.selector.name),
    ("stats", store.stats.toJson)]

/-! ## Queues and sets -/

/-- The state of a queue. -/
def ClauseQueue.toJson (queue : ClauseQueue) : Json :=
  Json.record
    [("name", text queue.name), ("len", nat queue.size), ("empty", .bool queue.isEmpty),
      ("peek", ofOption nat queue.first?)]

/-- Queues with their coefficients. -/
def queueSharesJson (queues : List (ClauseQueue × Nat)) : Json :=
  .array (queues.map fun q => .array [text q.1.name, nat q.2])

/-- How many clauses each queue of a passive set has handed out. -/
def PassiveSet.servedJson (passive : PassiveSet) : Json :=
  .array (passive.served.map fun e => .array [text e.1, nat e.2])

/-- The state of a passive set. -/
def PassiveSet.toJson (passive : PassiveSet) : Json :=
  let slotJson (slot : PassiveSlot) : Json :=
    .array [text slot.queue.name, nat slot.coefficient, nat slot.queue.size,
      ofOption nat slot.queue.first?]
  Json.record
    [("clauses", nats passive.live), ("len", nat passive.size),
      ("empty", .bool passive.live.isEmpty), ("queues", .array (passive.slots.map slotJson)),
      ("served", passive.servedJson), ("stats", passive.stats.toJson)]

/-- Index contents: key sequences with what stands under them. -/
def indexEntriesJson {α : Type} (encode : α → Json) (entries : List (List FlatKey × α)) : Json :=
  .array (entries.map fun e => .array [text (keysText e.1), encode e.2])

/-- The contents of the indices of the active set. -/
def ActiveSnapshot.toJson (snapshot : ActiveSnapshot) : Json :=
  let entries := indexEntriesJson fun e : TermEntry => text e.text
  Json.record
    [("clauses", nats snapshot.clauses), ("sup_into", entries snapshot.targets),
      ("sup_from", entries snapshot.rewriters), ("back_demod", entries snapshot.subterms),
      ("subsumption", nats snapshot.subsumption)]

/-! ## Runs -/

/-- How a run of the loop ended. -/
def SaturationResult.toJson : SaturationResult → Json
  | .exhausted verdict => text verdict.name
  | .refuted id => Json.record [("refuted", nat id)]
  | .limit => text "limit"

/-- One round of a run. -/
def SaturationRound.toJson (round : SaturationRound) : Json :=
  .array [nat round.given, nats round.conclusions]

end GivenClause
