import QuantumLowering.CachedBlock
import QuantumLowering.Decimal.Fixed
import QuantumLowering.Decimal.Reading
import QuantumLowering.Main
import QuantumLowering.Module
import QuantumLowering.Proofs.Bracketed
import QuantumLowering.Proofs.CanonicalRing
import QuantumLowering.Proofs.Conditions
import QuantumLowering.Proofs.ConstantSizes
import QuantumLowering.Proofs.ConstantSlices
import QuantumLowering.Proofs.Declarations
import QuantumLowering.Proofs.Equations
import QuantumLowering.Proofs.ErrorPositions
import QuantumLowering.Proofs.ExactDivision
import QuantumLowering.Proofs.Failures
import QuantumLowering.Proofs.Folding
import QuantumLowering.Proofs.Frames
import QuantumLowering.Proofs.HiddenUnknowns
import QuantumLowering.Proofs.Independence
import QuantumLowering.Proofs.Meaning
import QuantumLowering.Proofs.ModuleLowering
import QuantumLowering.Proofs.Multiplexing
import QuantumLowering.Proofs.PositionIndependence
import QuantumLowering.Proofs.ProductSizes
import QuantumLowering.Proofs.Readability
import QuantumLowering.Proofs.Redeclarations
import QuantumLowering.Proofs.ReducedForm
import QuantumLowering.Proofs.Replay
import QuantumLowering.Proofs.RingLaws
import QuantumLowering.Proofs.ScopeRuns
import QuantumLowering.Proofs.SizeComparisons
import QuantumLowering.Proofs.SizeSafety
import QuantumLowering.Proofs.Substitution
import QuantumLowering.Proofs.Tiling
import QuantumLowering.Proofs.TripCounts
