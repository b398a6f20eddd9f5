import CosineTransform.Direct
import CosineTransform.Plane.Transform
import CosineTransform.Proofs.Trig.BitReversal
import CosineTransform.Proofs.Trig.TwiddleLevels
import CosineTransform.Proofs.Trig.CosineTable
import CosineTransform.Proofs.Trig.Growth
import CosineTransform.Proofs.Trig.Words
import CosineTransform.Proofs.Fourier.Dft
import CosineTransform.Proofs.Fourier.TwiddleFactors
import CosineTransform.Proofs.Fourier.Transform
import CosineTransform.Proofs.InPlace
import CosineTransform.Proofs.Fourier.NaturalOrder
import CosineTransform.Proofs.Fourier.Butterflies
import CosineTransform.Proofs.Line.Kernel
import CosineTransform.Proofs.Line.Stages
import CosineTransform.Proofs.Line.Loops
import CosineTransform.Proofs.Line.RealStages
import CosineTransform.Proofs.Direct
import CosineTransform.Proofs.Line.RealFourier
import CosineTransform.Proofs.Line.Transform
import CosineTransform.Proofs.Line.InPlace
import CosineTransform.Proofs.Line.Correctness
import CosineTransform.Proofs.Line.RoundTrip
import CosineTransform.Proofs.Fourier.Correctness
import CosineTransform.Proofs.Fourier.LookUp
import CosineTransform.Proofs.Grid
import CosineTransform.Proofs.Columns.Split
import CosineTransform.Proofs.Workers
import CosineTransform.Proofs.Columns.Window
import CosineTransform.Proofs.Columns.Blocks
import CosineTransform.Proofs.Columns.Pass
import CosineTransform.Proofs.Rows.Pass
import CosineTransform.Proofs.Plane.Specification
import CosineTransform.Proofs.Plane.Transform
import CosineTransform.Proofs.Plane.Refinement
import CosineTransform.Proofs.Plane.Correctness
import CosineTransform.Proofs.Orthogonality
import CosineTransform.Proofs.Inversion
import CosineTransform.Proofs.Plane.Orthonormal
import CosineTransform.Proofs.Columns.Staging
import CosineTransform.Proofs.Columns.Partition
import CosineTransform.Proofs.Plane.Totality
import CosineTransform.Proofs.Columns.Interleaving
import CosineTransform.Proofs.Trig.ScaledTables
import CosineTransform.Proofs.Trig.Rounding
import CosineTransform.Proofs.Trig.Entries
import CosineTransform.Proofs.Line.Growth
import CosineTransform.Proofs.Scratch
import CosineTransform.Proofs.Trig.Requests
import CosineTransform.Proofs.Plane.Histories
import CosineTransform.Proofs.Reports
import CosineTransform.Proofs.Trig.DigitFilling
import CosineTransform.Proofs.Trig.Filling
