import MiniC.Command.Folder
import MiniC.Main
import MiniC.Proofs.CommandModes
import MiniC.Proofs.Commuting
import MiniC.Proofs.Faultless.Analysis
import MiniC.Proofs.Layout
import MiniC.Proofs.Levels.Order
import MiniC.Proofs.Literals
import MiniC.Proofs.Parameters
import MiniC.Proofs.Precedence
import MiniC.Proofs.Registry.History
import MiniC.Proofs.ResolvedOnce
import MiniC.Proofs.RoundTrip
import MiniC.Proofs.ScopeWords
import MiniC.Proofs.Spelling
import MiniC.Proofs.Visibility
