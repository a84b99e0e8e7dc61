import TexAnchor.Proofs.Batches
import TexAnchor.Proofs.Boundaries
import TexAnchor.Proofs.Deliveries
import TexAnchor.Proofs.Division
import TexAnchor.Proofs.Following
import TexAnchor.Proofs.Ledger
import TexAnchor.Proofs.Reordering
import TexAnchor.Proofs.Tables
import TexAnchor.Proofs.Traversal
import TexAnchor.Proofs.Unambiguity
import TexAnchor.Proofs.WordShifts
import TexAnchor.Proofs.WritingBack
import TexAnchor.Provider.Declared
import TexAnchor.Queue.Script
