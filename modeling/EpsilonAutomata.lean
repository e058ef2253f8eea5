import EpsilonAutomata.Journal
import EpsilonAutomata.Main
import EpsilonAutomata.Proofs.Paths
import EpsilonAutomata.Proofs.Check
import EpsilonAutomata.Proofs.Machine
import EpsilonAutomata.Proofs.Trimming
import EpsilonAutomata.Proofs.Derivative
import EpsilonAutomata.Proofs.TableAutomaton
import EpsilonAutomata.Proofs.Conversion
import EpsilonAutomata.Proofs.Minimality
import EpsilonAutomata.Proofs.Closure
import EpsilonAutomata.Proofs.Singletons
import EpsilonAutomata.Proofs.ReachedSets
import EpsilonAutomata.Proofs.Discovery
import EpsilonAutomata.Proofs.Edit
import EpsilonAutomata.Proofs.Drawing
import EpsilonAutomata.Proofs.History
import EpsilonAutomata.Proofs.Repetition
import EpsilonAutomata.Proofs.Analysis
import EpsilonAutomata.Proofs.Export
import EpsilonAutomata.Proofs.RoundTrip
import EpsilonAutomata.Proofs.Denotation
import EpsilonAutomata.Proofs.Construction
import EpsilonAutomata.Proofs.Refusal
import EpsilonAutomata.Proofs.FileTree
import EpsilonAutomata.Proofs.Reloading
import EpsilonAutomata.Proofs.Numbering
import EpsilonAutomata.Proofs.Arguments
import EpsilonAutomata.Proofs.Runs
import EpsilonAutomata.Proofs.Piping
import EpsilonAutomata.Proofs.Building
import EpsilonAutomata.Proofs.FreshNames
import EpsilonAutomata.Proofs.Monotonicity
import EpsilonAutomata.Proofs.AdditionOrder
import EpsilonAutomata.Proofs.ConversionInPlace
import EpsilonAutomata.Proofs.NamedLanguages
import EpsilonAutomata.Proofs.Tracing
import EpsilonAutomata.Proofs.Grouping
import EpsilonAutomata.Proofs.DotText
import EpsilonAutomata.Proofs.Separation
import EpsilonAutomata.Proofs.TransitionText
import EpsilonAutomata.Proofs.Inspection
import EpsilonAutomata.Proofs.CoarsestPartition
import EpsilonAutomata.Proofs.DeadEnds
