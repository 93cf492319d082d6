import Projectivity.Configuration.Basic
import Projectivity.Configuration.Draft
import Projectivity.Configuration.Estimator
import Projectivity.Configuration.File
import Projectivity.Decimal.Dyadic
import Projectivity.Decimal.Numeral
import Projectivity.Decimal.Scientific
import Projectivity.Decimal.Shortest
import Projectivity.Extended
import Projectivity.Fault
import Projectivity.Fitting.Family
import Projectivity.Fitting.Fitter
import Projectivity.Fitting.Iterations
import Projectivity.Fitting.Lmeds
import Projectivity.Fitting.Outcome
import Projectivity.Fitting.Ransac
import Projectivity.Fitting.Refit
import Projectivity.Fitting.Settings
import Projectivity.Fitting.Stopping
import Projectivity.Fitting.Stopping.Kind
import Projectivity.Homography.Basic
import Projectivity.Homography.ErrorVector
import Projectivity.Homography.Estimator
import Projectivity.Homography.Linear
import Projectivity.Homography.Normalization
import Projectivity.Homography.Projection
import Projectivity.Homography.Refinement
import Projectivity.Homography.Refinement.Settings
import Projectivity.Homography.Register
import Projectivity.Homography.Residual
import Projectivity.Homography.Sampson
import Projectivity.Matrix.Basic
import Projectivity.Matrix.Jacobi
import Projectivity.Matrix.Render
import Projectivity.Matrix.Spectrum
import Projectivity.Optimization.LeastSquares
import Projectivity.Point
import Projectivity.Point.Reading
import Projectivity.Proofs.Exact.Cost
import Projectivity.Proofs.Exact.Linear
import Projectivity.Proofs.Exact.Matrix
import Projectivity.Proofs.Exact.Projection
import Projectivity.Proofs.Exact.Recovery
import Projectivity.Proofs.Exact.Scalar
import Projectivity.Proofs.Exact.Search
import Projectivity.Proofs.Exact.Spectrum
import Projectivity.Proofs.Fitting.Consensus
import Projectivity.Proofs.Fitting.Draws
import Projectivity.Proofs.Fitting.Fitter
import Projectivity.Proofs.Fitting.History
import Projectivity.Proofs.Fitting.Lmeds
import Projectivity.Proofs.Fitting.Partition
import Projectivity.Proofs.Fitting.Ransac
import Projectivity.Proofs.Fitting.Stopping
import Projectivity.Proofs.Homography.Ending
import Projectivity.Proofs.Homography.History
import Projectivity.Proofs.Homography.Refinement
import Projectivity.Proofs.Homography.Search
import Projectivity.Random.Generator
import Projectivity.Random.Normal
import Projectivity.Random.Seed
import Projectivity.Random.Selection
import Projectivity.Scalar
import Projectivity.Scalar.Double
import Projectivity.Scalar.Double.Logarithm
import Projectivity.Scalar.Double.Power
import Projectivity.Scalar.Double.Rounding
import Projectivity.Synthetic
import Projectivity.Table
import Projectivity.Text.Blank
import Projectivity.Text.Quoted
import Projectivity.Value.Basic
import Projectivity.Value.Number
import Projectivity.Value.Range
import Projectivity.Yaml.Cursor
import Projectivity.Yaml.Document
import Projectivity.Yaml.Plain
import Projectivity.Yaml.Render
import Projectivity.Yaml.Scalar
import Projectivity.Yaml.Style
import Projectivity.Yaml.Token
import Projectivity.Proofs.Scalar.Order
import Projectivity.Proofs.Fitting.Iteration
import Projectivity.Proofs.Fitting.Selection
import Projectivity.Proofs.Fitting.Trace
import Projectivity.Homography.Reading
import Projectivity.Proofs.Fitting.Failure
import Projectivity.Proofs.Exact.Singular
import Projectivity.Proofs.Exact.Wide
import Projectivity.Proofs.Exact.WideMatrix
import Projectivity.Proofs.Homography.Safety
import Projectivity.Proofs.Exact.Dilation
import Projectivity.Proofs.Homography.Report
import Projectivity.Proofs.Homography.Improvement
import Projectivity.Proofs.Fitting.Consultation
import Projectivity.Proofs.Exact.Confidence
import Projectivity.Proofs.Fitting.Duration
import Projectivity.Proofs.Fitting.Median
import Projectivity.Proofs.Fitting.Budget
import Projectivity.Proofs.Scalar.Dyadic
import Projectivity.Proofs.Value.Number
import Projectivity.Proofs.Configuration.Reading
import Projectivity.Proofs.Configuration.Usable
import Projectivity.Proofs.Configuration.RoundTrip
import Projectivity.Proofs.Configuration.Report
import Projectivity.Proofs.Configuration.Heeded
import Projectivity.Proofs.Exact.Collinear
import Projectivity.Proofs.Exact.FourPoints
import Projectivity.Proofs.Exact.Determined
import Projectivity.Proofs.Exact.Degenerate
import Projectivity.Proofs.Exact.Conditioning
import Projectivity.Proofs.Exact.Translation
import Projectivity.Proofs.Fitting.Refit
import Projectivity.Proofs.Exact.Gram
import Projectivity.Proofs.Exact.Permutation
import Projectivity.Proofs.Exact.Minimum
import Projectivity.Proofs.Exact.Similarity
import Projectivity.Proofs.Fitting.Majority
import Projectivity.Proofs.Exact.Sampson
import Projectivity.Proofs.Exact.WideFactor
import Projectivity.Proofs.Homography.Factor
import Projectivity.Proofs.Exact.Inverse
import Projectivity.Proofs.Homography.Duality
import Projectivity.Proofs.Homography.Inverse
import Projectivity.Proofs.Scalar.Norm
import Projectivity.Proofs.Homography.Agreement
import Projectivity.Proofs.Exact.WideLinear
import Projectivity.Proofs.Homography.Register
import Projectivity.Proofs.Exact.Iterations
import Projectivity.Proofs.Synthetic.Labels
import Projectivity.Proofs.Scalar.Graded
import Projectivity.Proofs.Fitting.Coherence
import Projectivity.Proofs.Exact.Normalization
import Projectivity.Proofs.Homography.Objective
import Projectivity.Proofs.Fitting.SampleCount
