import LLOne.Main
import LLOne.Journal
import LLOne.Proofs.Lists
import LLOne.Proofs.Grammar.Derivation
import LLOne.Proofs.Grammar.WellFormed
import LLOne.Proofs.Grammar.First
import LLOne.Proofs.Grammar.FollowClosure
import LLOne.Proofs.Grammar.FollowRules
import LLOne.Proofs.Grammar.Follow
import LLOne.Proofs.Grammar.FollowFilling
import LLOne.Proofs.Grammar.FollowPasses
import LLOne.Proofs.Grammar.Prediction
import LLOne.Proofs.Grammar.LeftRecursion
import LLOne.Proofs.Grammar.FirstOrder
import LLOne.Proofs.Grammar.Conflict
import LLOne.Proofs.Grammar.DerivationTree
import LLOne.Proofs.Grammar.Loading
import LLOne.Proofs.Grammar.LineReading
import LLOne.Proofs.Grammar.LineFormat
import LLOne.Proofs.Grammar.Representation
import LLOne.Proofs.Grammar.Separation
import LLOne.Proofs.Grammar.Renumbering
import LLOne.Proofs.Grammar.SameProductions
import LLOne.Proofs.Grammar.Coverage
import LLOne.Proofs.Grammar.Ledger
import LLOne.Proofs.Grammar.Editing
import LLOne.Proofs.Text.Words
import LLOne.Proofs.Text.Quoted
import LLOne.Proofs.Report.Productions
import LLOne.Proofs.Grammar.Listing
import LLOne.Proofs.Grammar.TableCells
import LLOne.Proofs.Report.Table
import LLOne.Proofs.Json.Escape
import LLOne.Proofs.Json.Reader
import LLOne.Proofs.Token.Json
import LLOne.Proofs.Token
import LLOne.Proofs.Token.Slicing
import LLOne.Proofs.SyntaxError
import LLOne.Proofs.Tree.Arena
import LLOne.Proofs.Tree.Locations
import LLOne.Proofs.Tree.Printing
import LLOne.Proofs.Tree.Json
import LLOne.Proofs.Parser.Built
import LLOne.Proofs.Parser.Splitting
import LLOne.Proofs.Parser.Reading
import LLOne.Proofs.Parser.Runs
import LLOne.Proofs.Parser.Soundness
import LLOne.Proofs.Parser.Completeness
import LLOne.Proofs.Parser.Viability
import LLOne.Proofs.Parser.Halting
import LLOne.Proofs.Parser.Renumbering
import LLOne.Proofs.Parser.ErrorPosition
import LLOne.Proofs.Parser.EndMarker
import LLOne.Proofs.Parser.Reparsing
import LLOne.Proofs.Parser.LeftOver
import LLOne.Proofs.Parser.States
import LLOne.Proofs.Parser.Progress
import LLOne.Proofs.Parser.ArenaLoop
import LLOne.Proofs.Parser.StrictLoop
import LLOne.Proofs.Parser.Locations
import LLOne.Proofs.Parser.Messages
import LLOne.Proofs.Parser.Printing
import LLOne.Proofs.MessageTable
import LLOne.Proofs.CommandLine
import LLOne.Proofs.Journal
