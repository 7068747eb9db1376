import Gatework.Main
import Gatework.Proofs.Collection
import Gatework.Proofs.Counter
import Gatework.Proofs.Diagram
import Gatework.Proofs.Diagram.Quoting
import Gatework.Proofs.Expansion.Rebinding
import Gatework.Proofs.Expansion.Renaming
import Gatework.Proofs.Expansion.Returns
import Gatework.Proofs.Expansion.Trimming
import Gatework.Proofs.Forest.Positions
import Gatework.Proofs.Simulation.Frame
import Gatework.Proofs.Simulation.Synchronous
import Gatework.Proofs.Summary.Schema
import Gatework.Proofs.Summary.Spelling
import Gatework.Proofs.Token.Words
