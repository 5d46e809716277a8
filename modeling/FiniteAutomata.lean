import FiniteAutomata.Skeleton
import FiniteAutomata.NFA.Listing
import FiniteAutomata.NFA.Request
import FiniteAutomata.DFA.Command
import FiniteAutomata.DFA.Description
import FiniteAutomata.DFA.Renumbering
import FiniteAutomata.Offer
import FiniteAutomata.Version
import FiniteAutomata.Main
import FiniteAutomata.Proofs.Exploration
import FiniteAutomata.Proofs.Namer.Injective
import FiniteAutomata.Proofs.NFA.Calls
import FiniteAutomata.Proofs.NFA.Runs
import FiniteAutomata.Proofs.NFA.Stability
import FiniteAutomata.Proofs.NFA.Following
import FiniteAutomata.Proofs.NFA.Language
import FiniteAutomata.Proofs.DFA.Following
import FiniteAutomata.Proofs.NFA.Determinized
import FiniteAutomata.Proofs.NFA.Simulation
import FiniteAutomata.Proofs.NFA.Merging
import FiniteAutomata.Proofs.NFA.Assembled
import FiniteAutomata.Proofs.NFA.Collisions
import FiniteAutomata.Proofs.NFA.Completion
import FiniteAutomata.Proofs.NFA.Marked
import FiniteAutomata.Proofs.DFA.Tracing
import FiniteAutomata.Proofs.NFA.Requests
import FiniteAutomata.Proofs.NFA.Reordering
import FiniteAutomata.Proofs.NFA.Alphabet
import FiniteAutomata.Proofs.Tables
import FiniteAutomata.Proofs.DFA.Runs
import FiniteAutomata.Proofs.DFA.Calls
import FiniteAutomata.Proofs.Exploration.Breadth
import FiniteAutomata.Proofs.Exploration.Lockstep
import FiniteAutomata.Proofs.DFA.Isomorphism
import FiniteAutomata.Proofs.DFA.Relabelling
import FiniteAutomata.Proofs.DFA.Numbering
import FiniteAutomata.Proofs.DFA.Canonical
import FiniteAutomata.Proofs.Blowup.Language
import FiniteAutomata.Proofs.Blowup.Size
import FiniteAutomata.Proofs.NFA.Triples
import FiniteAutomata.Proofs.NFA.Hiding
import FiniteAutomata.Proofs.NFA.Declaring
import FiniteAutomata.Proofs.NFA.Closure
import FiniteAutomata.Proofs.NFA.Additive
import FiniteAutomata.Proofs.DFA.Entries
import FiniteAutomata.Proofs.DFA.Requests
import FiniteAutomata.Proofs.DFA.Routes
import FiniteAutomata.Proofs.NFA.Listed
import FiniteAutomata.Proofs.Stepwise
import FiniteAutomata.Proofs.Refusals
import FiniteAutomata.Proofs.DFA.Equality
import FiniteAutomata.Proofs.Text.Parts
import FiniteAutomata.Proofs.DFA.Description
import FiniteAutomata.Proofs.NFA.Construction
import FiniteAutomata.Proofs.NFA.Messages
