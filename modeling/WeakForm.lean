import WeakForm.Assembly
import WeakForm.Assembly.Block
import WeakForm.Assignment
import WeakForm.Capacity
import WeakForm.Condition
import WeakForm.Datum
import WeakForm.Datum.Array
import WeakForm.Datum.Entries
import WeakForm.Datum.Order
import WeakForm.Decimal
import WeakForm.Element
import WeakForm.Element.Basis
import WeakForm.Element.Batch
import WeakForm.Element.Data
import WeakForm.Element.Family
import WeakForm.Element.Side
import WeakForm.Element.Site
import WeakForm.Error
import WeakForm.ErrorNorm
import WeakForm.Expression.Evaluation
import WeakForm.Expression.Grammar
import WeakForm.Expression.Names
import WeakForm.Expression.Parser
import WeakForm.Expression.Substitution
import WeakForm.Expression.Token
import WeakForm.Expression.Tree
import WeakForm.Expression.Writer
import WeakForm.Field
import WeakForm.Formulation
import WeakForm.Index
import WeakForm.Integration
import WeakForm.Kernel
import WeakForm.Linear.Dense
import WeakForm.Linear.Elimination
import WeakForm.Linear.PseudoInverse
import WeakForm.Linear.Sparse
import WeakForm.Mesh.Basic
import WeakForm.Mesh.Drawing
import WeakForm.Mesh.Grid
import WeakForm.Mesh.Predicate
import WeakForm.Mesh.Selection
import WeakForm.Mesh.TagId
import WeakForm.Mesh.Tagging
import WeakForm.Mesh.Topology
import WeakForm.Proofs.Assembly.Blocks
import WeakForm.Proofs.Assembly.Degenerate
import WeakForm.Proofs.Assembly.Diffusion
import WeakForm.Proofs.Assembly.Energy
import WeakForm.Proofs.Assembly.IndexLists
import WeakForm.Proofs.Assembly.Linearity
import WeakForm.Proofs.Assembly.Measures
import WeakForm.Proofs.Assembly.Ones
import WeakForm.Proofs.Assembly.OverCells
import WeakForm.Proofs.Assembly.OverSides
import WeakForm.Proofs.Assembly.Overwriting
import WeakForm.Proofs.Assembly.Renumbering
import WeakForm.Proofs.Assembly.Rotations
import WeakForm.Proofs.Assembly.Scatter
import WeakForm.Proofs.Assembly.Semidefinite
import WeakForm.Proofs.Assembly.Shares
import WeakForm.Proofs.Assembly.Strategies
import WeakForm.Proofs.Element.AffineFields
import WeakForm.Proofs.Element.Areas
import WeakForm.Proofs.Element.Beams
import WeakForm.Proofs.Element.Columns
import WeakForm.Proofs.Element.DataSides
import WeakForm.Proofs.Element.Deflections
import WeakForm.Proofs.Element.Detection
import WeakForm.Proofs.Element.DofLists
import WeakForm.Proofs.Element.Fields
import WeakForm.Proofs.Element.Frames
import WeakForm.Proofs.Element.Gradients
import WeakForm.Proofs.Element.LocalProducts
import WeakForm.Proofs.Element.Measures
import WeakForm.Proofs.Element.Normals
import WeakForm.Proofs.Element.Placements
import WeakForm.Proofs.Element.SideCurves
import WeakForm.Proofs.Element.Strains
import WeakForm.Proofs.Element.Tables
import WeakForm.Proofs.Element.Traces
import WeakForm.Proofs.Element.Turns
import WeakForm.Proofs.Expression.Binding
import WeakForm.Proofs.Expression.Completeness
import WeakForm.Proofs.Expression.Derivations
import WeakForm.Proofs.Expression.Evaluating
import WeakForm.Proofs.Expression.FreeNumerals
import WeakForm.Proofs.Expression.Lexemes
import WeakForm.Proofs.Expression.MatrixAlgebra
import WeakForm.Proofs.Expression.Numerals
import WeakForm.Proofs.Expression.Readings
import WeakForm.Proofs.Expression.References
import WeakForm.Proofs.Expression.Replacing
import WeakForm.Proofs.Expression.Scanning
import WeakForm.Proofs.Expression.Soundness
import WeakForm.Proofs.Expression.Trees
import WeakForm.Proofs.Expression.Writing
import WeakForm.Proofs.Formulation.Combinations
import WeakForm.Proofs.Formulation.Expansions
import WeakForm.Proofs.Formulation.Histories
import WeakForm.Proofs.Formulation.Registry
import WeakForm.Proofs.Kernel.ClosedForms
import WeakForm.Proofs.Kernel.Copies
import WeakForm.Proofs.Kernel.Forms
import WeakForm.Proofs.Kernel.Integrals
import WeakForm.Proofs.Kernel.Mass
import WeakForm.Proofs.Kernel.Turns
import WeakForm.Proofs.Linear.Cancellation
import WeakForm.Proofs.Linear.Elimination
import WeakForm.Proofs.Linear.PseudoInverse
import WeakForm.Proofs.Linear.SparseEntries
import WeakForm.Proofs.Lists
import WeakForm.Proofs.Mesh.BeamFields
import WeakForm.Proofs.Mesh.Boundaries
import WeakForm.Proofs.Mesh.Conforming
import WeakForm.Proofs.Mesh.Continuity
import WeakForm.Proofs.Mesh.EdgeSides
import WeakForm.Proofs.Mesh.Elements
import WeakForm.Proofs.Mesh.ErrorNorms
import WeakForm.Proofs.Mesh.Exterior
import WeakForm.Proofs.Mesh.Grids
import WeakForm.Proofs.Mesh.Intervals
import WeakForm.Proofs.Mesh.Lifecycle
import WeakForm.Proofs.Mesh.Locations
import WeakForm.Proofs.Mesh.Masks
import WeakForm.Proofs.Mesh.Neighbors
import WeakForm.Proofs.Mesh.Numbering
import WeakForm.Proofs.Mesh.Reachable
import WeakForm.Proofs.Mesh.Rectangles
import WeakForm.Proofs.Mesh.Renumbered
import WeakForm.Proofs.Mesh.Renumbering
import WeakForm.Proofs.Mesh.Rotations
import WeakForm.Proofs.Mesh.Scaling
import WeakForm.Proofs.Mesh.Sides
import WeakForm.Proofs.Mesh.Tagging
import WeakForm.Proofs.Mesh.Tags
import WeakForm.Proofs.Mesh.Tilings
import WeakForm.Proofs.Mesh.Triangles
import WeakForm.Proofs.Mesh.Unions
import WeakForm.Proofs.Outcome
import WeakForm.Proofs.Quadrature.Exactness
import WeakForm.Proofs.Quadrature.TensorProducts
import WeakForm.Proofs.RealScalar
import WeakForm.Proofs.Solver.AffineFields
import WeakForm.Proofs.Solver.Attempts
import WeakForm.Proofs.Solver.Balance
import WeakForm.Proofs.Solver.BoundaryValues
import WeakForm.Proofs.Solver.Cantilever
import WeakForm.Proofs.Solver.Components
import WeakForm.Proofs.Solver.Courses
import WeakForm.Proofs.Solver.Equilibrium
import WeakForm.Proofs.Solver.Histories
import WeakForm.Proofs.Solver.Lookups
import WeakForm.Proofs.Solver.Motions
import WeakForm.Proofs.Solver.NodalExactness
import WeakForm.Proofs.Solver.Partition
import WeakForm.Proofs.Solver.PatchTest
import WeakForm.Proofs.Solver.Prescribed
import WeakForm.Proofs.Solver.Problems
import WeakForm.Proofs.Solver.Recurrence
import WeakForm.Proofs.Solver.Renumbering
import WeakForm.Proofs.Solver.Restart
import WeakForm.Proofs.Solver.Sizes
import WeakForm.Proofs.Solver.Solutions
import WeakForm.Proofs.Solver.Steady
import WeakForm.Proofs.Solver.ThetaScheme
import WeakForm.Proofs.Solver.WellPosed
import WeakForm.Proofs.Tensor.Broadcasting
import WeakForm.Proofs.Tensor.Maps
import WeakForm.Proofs.Tensor.Matrices
import WeakForm.Proofs.Tensor.Products
import WeakForm.Proofs.Value.ComplexParts
import WeakForm.Proofs.Value.Failures
import WeakForm.Proofs.Value.MatrixArithmetic
import WeakForm.Proofs.Value.MatrixValues
import WeakForm.Proofs.Value.RealArrays
import WeakForm.Proofs.Value.RealMatrices
import WeakForm.Proofs.Value.RealNumbers
import WeakForm.Proofs.Value.RealValues
import WeakForm.Proofs.Value.Rearranged
import WeakForm.Proofs.Value.SquareMatrices
import WeakForm.Quadrature
import WeakForm.Scalar
import WeakForm.Session
import WeakForm.Settings
import WeakForm.Solver.Basic
import WeakForm.Solver.Partition
import WeakForm.Solver.Steady
import WeakForm.Solver.Transient
import WeakForm.Tensor
import WeakForm.Text.Binary64
import WeakForm.Text.Digit
import WeakForm.Text.Lowercase
import WeakForm.Text.Quoted
import WeakForm.Text.Shortest
import WeakForm.Value
import WeakForm.Value.Number
import WeakForm.Value.NumberArray
import WeakForm.Value.NumberMatrix
import WeakForm.Value.Power
