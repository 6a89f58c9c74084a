import SexpEdit.Main
import SexpEdit.Proofs.Addresses
import SexpEdit.Proofs.Arguments
import SexpEdit.Proofs.BarfSlurp
import SexpEdit.Proofs.CheckedRun
import SexpEdit.Proofs.CommandRuns
import SexpEdit.Proofs.CutPaste
import SexpEdit.Proofs.Highlighting
import SexpEdit.Proofs.Innermost
import SexpEdit.Proofs.Landing
import SexpEdit.Proofs.LinesBelow
import SexpEdit.Proofs.LiveSelection
import SexpEdit.Proofs.Margins
import SexpEdit.Proofs.Markers
import SexpEdit.Proofs.Matching
import SexpEdit.Proofs.MaximalMunch
import SexpEdit.Proofs.Narrowest
import SexpEdit.Proofs.Places
import SexpEdit.Proofs.Rearranging
import SexpEdit.Proofs.Rebuilding
import SexpEdit.Proofs.Regions
import SexpEdit.Proofs.SavedSettings
import SexpEdit.Proofs.Settling
import SexpEdit.Proofs.Splitting
import SexpEdit.Proofs.Transactions
import SexpEdit.Proofs.Unsaved
import SexpEdit.Proofs.Widening
