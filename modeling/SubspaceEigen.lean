import SubspaceEigen.Progress.Log
import SubspaceEigen.Proofs.Config.Document
import SubspaceEigen.Proofs.Config.Objects
import SubspaceEigen.Proofs.Correction
import SubspaceEigen.Proofs.Eigen.Scaling
import SubspaceEigen.Proofs.Operator.Compressed
import SubspaceEigen.Proofs.Operator.Excitations
import SubspaceEigen.Proofs.Operator.Triplets
import SubspaceEigen.Proofs.Orthogonal.Agreement
import SubspaceEigen.Proofs.Orthogonal.ColumnSpace
import SubspaceEigen.Proofs.Preconditioner
import SubspaceEigen.Proofs.Ritz.Clusters
import SubspaceEigen.Proofs.Ritz.Directions
import SubspaceEigen.Proofs.Ritz.Galerkin
import SubspaceEigen.Proofs.Ritz.Invariant
import SubspaceEigen.Proofs.SearchSpace.Coherence
import SubspaceEigen.Proofs.Solver.Basis
import SubspaceEigen.Proofs.Solver.Coordinates
import SubspaceEigen.Proofs.Solver.Enclosure
import SubspaceEigen.Proofs.Solver.Entry
import SubspaceEigen.Proofs.Solver.Faults
import SubspaceEigen.Proofs.Solver.FullSpace
import SubspaceEigen.Proofs.Solver.Limits
import SubspaceEigen.Proofs.Solver.Maxima
import SubspaceEigen.Proofs.Solver.Monotone
import SubspaceEigen.Proofs.Solver.Representation
import SubspaceEigen.Proofs.Solver.Settings
import SubspaceEigen.Proofs.Solver.Settling
import SubspaceEigen.Proofs.Solver.Shift
import SubspaceEigen.Proofs.Solver.Shrinking
import SubspaceEigen.Proofs.Solver.Stalling
import SubspaceEigen.Proofs.UndefinedValues
