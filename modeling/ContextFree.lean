import ContextFree.Main
import ContextFree.Proofs.Analysis.LeastFollow
import ContextFree.Proofs.Analysis.Neighbours
import ContextFree.Proofs.Arithmetic
import ContextFree.Proofs.Backtracking.Entries
import ContextFree.Proofs.Backtracking.Order
import ContextFree.Proofs.Bracketings
import ContextFree.Proofs.Chart.Exactness
import ContextFree.Proofs.Chart.Notes
import ContextFree.Proofs.Derivation.Traversal
import ContextFree.Proofs.Outline
import ContextFree.Proofs.Predictive.Exactness
import ContextFree.Proofs.Predictive.Refusal
import ContextFree.Proofs.Predictive.Unfolding
import ContextFree.Proofs.Safety
import ContextFree.Proofs.Unambiguous
import ContextFree.Proofs.Written
