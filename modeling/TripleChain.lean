import TripleChain.Reasoner
import TripleChain.Report
import TripleChain.Proofs.Components
import TripleChain.Proofs.Dependency
import TripleChain.Proofs.Soundness
import TripleChain.Proofs.Instances
import TripleChain.Proofs.Monotone
import TripleChain.Proofs.Negation
import TripleChain.Proofs.Steps
import TripleChain.Proofs.DirectConsequences
import TripleChain.Proofs.Saturation
import TripleChain.Proofs.Idempotence
import TripleChain.Proofs.FactMonotonicity
import TripleChain.Proofs.Values
import TripleChain.Proofs.Extensional
import TripleChain.Proofs.Comparison
import TripleChain.Proofs.SameFacts
import TripleChain.Proofs.ClauseOrder
import TripleChain.Proofs.LeastModel
import TripleChain.Proofs.StratifiedNegation
import TripleChain.Proofs.Histories
import TripleChain.Proofs.NaiveRounds
import TripleChain.Proofs.GuardedSoundness
import TripleChain.Proofs.TransitiveClosure
import TripleChain.Proofs.WorkList
import TripleChain.Proofs.BlockedMatches
import TripleChain.Proofs.Placements
import TripleChain.Proofs.RenamedRules
import TripleChain.Proofs.GreedyWalk
import TripleChain.Proofs.Termination
import TripleChain.Proofs.VariableConclusions
import TripleChain.Proofs.Scheduling
import TripleChain.Proofs.Draws
import TripleChain.Proofs.IndexedQueries
import TripleChain.Proofs.MintedLabels
import TripleChain.Proofs.Codes
import TripleChain.Proofs.Reordering
import TripleChain.Proofs.AmbientScopes
import TripleChain.Proofs.Documents
import TripleChain.Proofs.Instantiation
import TripleChain.Proofs.SharedCorrespondences
import TripleChain.Proofs.CanonicalFormulas
import TripleChain.Proofs.CodeModes
import TripleChain.Proofs.ShortNames
