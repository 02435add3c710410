import Lookahead.Main
import Lookahead.Proofs.Language.Ending
import Lookahead.Proofs.Language.FirstComplaint
import Lookahead.Proofs.Language.Places
import Lookahead.Proofs.Language.Reformatting
import Lookahead.Proofs.Imperative.Prefix
import Lookahead.Proofs.Run.Pulling
import Lookahead.Proofs.Token.Recounting
import Lookahead.Proofs.Language.Order
import Lookahead.Proofs.Language.Counting
import Lookahead.Proofs.Language.Truncation
import Lookahead.Proofs.Pattern.Anchoring
import Lookahead.Proofs.Run.Layers
import Lookahead.Proofs.Run.Log
import Lookahead.Proofs.Language.Log
import Lookahead.Proofs.Report.Lossless
import Lookahead.Proofs.Settings.Layering
import Lookahead.Proofs.Command.Exit
import Lookahead.Proofs.Language.Stopping
import Lookahead.Proofs.Language.Closers
import Lookahead.Proofs.Run.Agreement
import Lookahead.Proofs.Language.Flat
import Lookahead.Proofs.Imperative.Negation
import Lookahead.Proofs.Imperative.Initializer
import Lookahead.Proofs.Run.EndToken
import Lookahead.Proofs.Grammar.Validation
import Lookahead.Proofs.Language.Lexicon
import Lookahead.Proofs.Language.Reports
import Lookahead.Proofs.Text.Chunks
import Lookahead.Proofs.Language.Progress
