import FuzzyRules.Main
import FuzzyRules.Proofs.Compilation.Endings
import FuzzyRules.Proofs.Compilation.History
import FuzzyRules.Proofs.Engine.Closed
import FuzzyRules.Proofs.Engine.Settling
import FuzzyRules.Proofs.Phrases.Earliest
import FuzzyRules.Proofs.Phrases.Faults
import FuzzyRules.Proofs.Phrases.Concatenation
import FuzzyRules.Proofs.Phrases.Renderings
import FuzzyRules.Proofs.Assembly.Nesting
import FuzzyRules.Proofs.Assembly.Refusals
import FuzzyRules.Proofs.Phrases.Paths
import FuzzyRules.Proofs.Compilation.Trace
import FuzzyRules.Proofs.Words.Viability
import FuzzyRules.Proofs.Automaton.Interpretation
import FuzzyRules.Proofs.Automaton.Stalls
import FuzzyRules.Proofs.Compilation.Phases
import FuzzyRules.Proofs.Engine.Operations
import FuzzyRules.Proofs.Assembly.Confinement
import FuzzyRules.Proofs.RuleBase.Objections
import FuzzyRules.Proofs.Quantities
import FuzzyRules.Proofs.Universe.Totality
import FuzzyRules.Proofs.Automaton.Failures
import FuzzyRules.Proofs.Token.Emissions
import FuzzyRules.Proofs.Words.Finality
import FuzzyRules.Proofs.Phrases.Lines
import FuzzyRules.Proofs.Universe.Polyline
import FuzzyRules.Proofs.Universe.Sorting
import FuzzyRules.Proofs.Universe.Steepness
import FuzzyRules.Proofs.Universe.Intake
import FuzzyRules.Proofs.Universe.Listing
import FuzzyRules.Proofs.RuleBase.Nearness
import FuzzyRules.Proofs.Engine.Locality
