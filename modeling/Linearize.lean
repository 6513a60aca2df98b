import Linearize.Main
import Linearize.Proofs.Closure
import Linearize.Proofs.ColumnList
import Linearize.Proofs.Comparisons
import Linearize.Proofs.Completeness
import Linearize.Proofs.Connectives
import Linearize.Proofs.CoverStore
import Linearize.Proofs.Descent
import Linearize.Proofs.Layout
import Linearize.Proofs.Legend
import Linearize.Proofs.Overflow
import Linearize.Proofs.Priority
import Linearize.Proofs.Relaxation
import Linearize.Proofs.Reordering
import Linearize.Proofs.Repetition
import Linearize.Proofs.Refusals
import Linearize.Proofs.Reports
import Linearize.Proofs.Settings
import Linearize.Proofs.Solutions
import Linearize.Proofs.Suffixes
import Linearize.Proofs.Terms
import Linearize.Proofs.Transcripts
import Linearize.Proofs.Transitions
import Linearize.Proofs.Typing
import Linearize.Solver.Files
import Linearize.Proofs.Cuts
