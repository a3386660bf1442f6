import RpalMachine.Main
import RpalMachine.Trace
import RpalMachine.Proofs.Safety
import RpalMachine.Proofs.Frames
import RpalMachine.Proofs.Programs
import RpalMachine.Proofs.Height
import RpalMachine.Proofs.Lexical
import RpalMachine.Proofs.Modularity
import RpalMachine.Proofs.Output
import RpalMachine.Proofs.Data
import RpalMachine.Proofs.Interchange
import RpalMachine.Proofs.Closures
import RpalMachine.Proofs.Refusals
import RpalMachine.Proofs.Nesting
import RpalMachine.Proofs.Numbering
import RpalMachine.Proofs.Exactness
import RpalMachine.Proofs.Failures
import RpalMachine.Proofs.Unambiguity
import RpalMachine.Proofs.Outlines
import RpalMachine.Proofs.Sessions
import RpalMachine.Proofs.Snippets
import RpalMachine.Proofs.Strings
