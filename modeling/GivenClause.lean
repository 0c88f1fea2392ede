import GivenClause.Json.ConfigCodec
import GivenClause.Json.Report
import GivenClause.Proofs.Retrieval.TreeContents
import GivenClause.Search.Resolution
import GivenClause.Proofs.Clause.StoreRuns
import GivenClause.Proofs.Retrieval.FeatureContents
import GivenClause.Proofs.Search.ActiveIndices
import GivenClause.Proofs.Search.ActiveRuns
import GivenClause.Proofs.Clause.EligibleLiterals
import GivenClause.Proofs.Search.InstancePositions
import GivenClause.Proofs.Unify.MostGeneral
import GivenClause.Proofs.Clause.Sharing
import GivenClause.Proofs.Order.ComparisonLaws
import GivenClause.Proofs.Search.PassiveEntries
import GivenClause.Proofs.Search.EagerPassive
import GivenClause.Proofs.Search.PassiveRefinement
import GivenClause.Proofs.Search.PassiveRuns
import GivenClause.Proofs.Search.Exhaustion
import GivenClause.Proofs.Order.Descent
import GivenClause.Proofs.Clause.EligibleInstances
import GivenClause.Proofs.Retrieval.TreeRuns
import GivenClause.Proofs.Retrieval.TermSearch
import GivenClause.Proofs.Retrieval.RewriteContents
import GivenClause.Proofs.Retrieval.UnifierSearch
import GivenClause.Proofs.Search.IndexRuns
import GivenClause.Proofs.Search.RuleLookup
import GivenClause.Proofs.Search.SubsumptionFilter
import GivenClause.Proofs.Search.Activation
import GivenClause.Proofs.Clause.StoreIntegrity
import GivenClause.Proofs.Order.SimplificationOrder
import GivenClause.Proofs.Clause.DerivationLinks
import GivenClause.Proofs.Search.AgeTurns
import GivenClause.Proofs.Search.Fairness
import GivenClause.Proofs.Order.GroundOrder
import GivenClause.Proofs.Order.ExactComparison
import GivenClause.Proofs.Order.MultisetExtension
import GivenClause.Proofs.Clause.KeptLiterals
import GivenClause.Proofs.Unify.Termination
import GivenClause.Proofs.Retrieval.KeyDecoding
import GivenClause.Proofs.Clause.RenamedInstances
import GivenClause.Proofs.Term.Positions
import GivenClause.Proofs.Search.IndexedPositions
import GivenClause.Proofs.Search.RangeQueries
import GivenClause.Proofs.Search.MergedLiterals
import GivenClause.Proofs.Clause.GoalDistance
import GivenClause.Proofs.Clause.FailedCreations
import GivenClause.Proofs.Clause.Rederivation
import GivenClause.Proofs.Search.FailedAdditions
import GivenClause.Proofs.Search.TurnQuotas
import GivenClause.Proofs.Literal.HeaviestNegative
import GivenClause.Proofs.Priority.SaturatedWeights
import GivenClause.Proofs.Retrieval.PositionWalks
import GivenClause.Proofs.Literal.MemberSets
import GivenClause.Proofs.Order.NamedSettings
import GivenClause.Proofs.Unify.SharedRenaming
