import AdaptiveAutomata.Checkpoint
import AdaptiveAutomata.Spec.Check
import AdaptiveAutomata.Spec.Statistics
import AdaptiveAutomata.Table.Json
import AdaptiveAutomata.Proofs.Acyclic
import AdaptiveAutomata.Proofs.SelfReference
import AdaptiveAutomata.Proofs.Identifiers
import AdaptiveAutomata.Proofs.Names
import AdaptiveAutomata.Proofs.Freshness
import AdaptiveAutomata.Proofs.References
import AdaptiveAutomata.Proofs.Snapshots
import AdaptiveAutomata.Proofs.WellFormed
import AdaptiveAutomata.Proofs.Images
import AdaptiveAutomata.Proofs.Loading
import AdaptiveAutomata.Proofs.BinaryForms
import AdaptiveAutomata.Proofs.SpecTexts
import AdaptiveAutomata.Proofs.JsonForms
import AdaptiveAutomata.Proofs.Logs
import AdaptiveAutomata.Proofs.Duplicates
import AdaptiveAutomata.Proofs.Resuming
import AdaptiveAutomata.Proofs.Sorting
import AdaptiveAutomata.Proofs.Resolving
import AdaptiveAutomata.Proofs.Renaming
import AdaptiveAutomata.Proofs.FirstViolation
import AdaptiveAutomata.Proofs.Minting
import AdaptiveAutomata.Proofs.Submachines
import AdaptiveAutomata.Proofs.Recording
import AdaptiveAutomata.Proofs.Restoring
import AdaptiveAutomata.Proofs.Queries
import AdaptiveAutomata.Proofs.Operations
import AdaptiveAutomata.Proofs.Transitions
import AdaptiveAutomata.Proofs.Reported
import AdaptiveAutomata.Proofs.StateNames
import AdaptiveAutomata.Proofs.Matching
import AdaptiveAutomata.Proofs.Splicing
import AdaptiveAutomata.Proofs.SpecSpellings
import AdaptiveAutomata.Proofs.Rereading
