import GameRules.Program.Validation
import GameRules.Proofs.Node.Occurrence
import GameRules.Proofs.Graph.Dependency
import GameRules.Proofs.Arity.Uniform
import GameRules.Proofs.Arity.Order
import GameRules.Proofs.Program.Analysis
import GameRules.Proofs.Graph.Strata
import GameRules.Proofs.Keyword.Use
import GameRules.Proofs.Rule.Safety
import GameRules.Proofs.Program.Acceptance
import GameRules.Proofs.Program.Growth
import GameRules.Proofs.Program.Trace
import GameRules.Proofs.Program.Warnings
import GameRules.Proofs.Program.ItemSet
import GameRules.Proofs.Program.Variables
import GameRules.Proofs.Text.Balance
import GameRules.Graph.Session
import GameRules.Proofs.Graph.Session
import GameRules.Proofs.Arity.Calls
import GameRules.Proofs.Program.Names
import GameRules.Proofs.Text.LineEndings
import GameRules.Proofs.Node.Readability
import GameRules.Proofs.Program.Keywords
import GameRules.Proofs.First
import GameRules.Proofs.Keyword.Placing
import GameRules.Proofs.Graph.Cycles
import GameRules.Proofs.Program.Reserved
import GameRules.Proofs.Rule.Growth
import GameRules.Proofs.Arity.Mentions
import GameRules.Proofs.Graph.Duality
import GameRules.Proofs.Graph.Polarity
import GameRules.Proofs.Graph.Search
import GameRules.Proofs.Node.Terms
import GameRules.Proofs.Keyword.Wording
