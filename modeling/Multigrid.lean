import Multigrid.Interpolation.Reading
import Multigrid.Proofs.Hierarchy.Attempts
import Multigrid.Proofs.Hierarchy.RowScaling
import Multigrid.Proofs.Hierarchy.StorageOrder
import Multigrid.Proofs.Hierarchy.WellFormed
import Multigrid.Proofs.Interpolation.ComposedTruncation
import Multigrid.Proofs.Interpolation.Constants
import Multigrid.Proofs.Interpolation.DirectSums
import Multigrid.Proofs.Interpolation.Divisors
import Multigrid.Proofs.Interpolation.KeptEntries
import Multigrid.Proofs.Interpolation.Reservation
import Multigrid.Proofs.Scalar.Nearest
import Multigrid.Proofs.Scalar.RoundedOrder
import Multigrid.Proofs.Scalar.Underflow
import Multigrid.Proofs.Session.TimedBlocks
import Multigrid.Proofs.Sparse.MaskedSlots
import Multigrid.Proofs.Sparse.ReadBack
import Multigrid.Proofs.Splitting.Finality
import Multigrid.Proofs.Splitting.Greedy
import Multigrid.Proofs.Splitting.Independence
import Multigrid.Proofs.Splitting.SinglePasses
import Multigrid.Proofs.Strength.Compressed
import Multigrid.Proofs.Strength.InfluenceOrder
import Multigrid.Proofs.Strength.Tolerance
import Multigrid.Proofs.Table.History
import Multigrid.Proofs.Table.Ranks
import Multigrid.Scalar.ElementType
import Multigrid.Sparse.Transfer
import Multigrid.Splitting.Passes
