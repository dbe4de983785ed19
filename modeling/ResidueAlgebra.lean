import ResidueAlgebra.Cancellation
import ResidueAlgebra.Command.Arguments
import ResidueAlgebra.Command.Report
import ResidueAlgebra.Command.Session
import ResidueAlgebra.Config.Environment
import ResidueAlgebra.Config.Load
import ResidueAlgebra.Config.Settings
import ResidueAlgebra.Config.Toml
import ResidueAlgebra.Config.Value
import ResidueAlgebra.Config.Yaml
import ResidueAlgebra.Engine
import ResidueAlgebra.Fault
import ResidueAlgebra.IndexCalculus.Relation
import ResidueAlgebra.IndexCalculus.Solver
import ResidueAlgebra.Json.Basic
import ResidueAlgebra.Json.Decode
import ResidueAlgebra.Json.Encode
import ResidueAlgebra.Linear.Solution
import ResidueAlgebra.Linear.System
import ResidueAlgebra.Main
import ResidueAlgebra.Poly.Basic
import ResidueAlgebra.Poly.Division
import ResidueAlgebra.Poly.Euclid
import ResidueAlgebra.Poly.Frobenius
import ResidueAlgebra.Poly.SquareFree
import ResidueAlgebra.Poly.Text
import ResidueAlgebra.Prime.FactorBase
import ResidueAlgebra.Prime.Factorization
import ResidueAlgebra.Prime.TrialDivision
import ResidueAlgebra.Proofs.Command.Arguments
import ResidueAlgebra.Proofs.Command.Report
import ResidueAlgebra.Proofs.Computation
import ResidueAlgebra.Proofs.EntryPoints
import ResidueAlgebra.Proofs.IndexCalculus.Admission
import ResidueAlgebra.Proofs.IndexCalculus.Bounds
import ResidueAlgebra.Proofs.IndexCalculus.Finality
import ResidueAlgebra.Proofs.IndexCalculus.Gathering
import ResidueAlgebra.Proofs.IndexCalculus.LogSums
import ResidueAlgebra.Proofs.IndexCalculus.Logarithm
import ResidueAlgebra.Proofs.IndexCalculus.Runs
import ResidueAlgebra.Proofs.IndexCalculus.SmallBases
import ResidueAlgebra.Proofs.IndexCalculus.Solve
import ResidueAlgebra.Proofs.IndexCalculus.Target
import ResidueAlgebra.Proofs.Linear.Elimination
import ResidueAlgebra.Proofs.Linear.Equation
import ResidueAlgebra.Proofs.Linear.FullRank
import ResidueAlgebra.Proofs.Linear.Normalization
import ResidueAlgebra.Proofs.Linear.PrimeDivisor
import ResidueAlgebra.Proofs.Linear.Rank
import ResidueAlgebra.Proofs.Linear.ReducedForm
import ResidueAlgebra.Proofs.Linear.RowSpace
import ResidueAlgebra.Proofs.Linear.Solution
import ResidueAlgebra.Proofs.Linear.UnitPivots
import ResidueAlgebra.Proofs.Poly.Arithmetic
import ResidueAlgebra.Proofs.Poly.Division
import ResidueAlgebra.Proofs.Poly.Euclid
import ResidueAlgebra.Proofs.Poly.EuclidTrace
import ResidueAlgebra.Proofs.Poly.FixedPoints
import ResidueAlgebra.Proofs.Poly.FrobeniusKernel
import ResidueAlgebra.Proofs.Poly.FrobeniusRows
import ResidueAlgebra.Proofs.Poly.Recursion
import ResidueAlgebra.Proofs.Poly.Ring
import ResidueAlgebra.Proofs.Poly.Root
import ResidueAlgebra.Proofs.Poly.Separable
import ResidueAlgebra.Proofs.Poly.SquareFree
import ResidueAlgebra.Proofs.Poly.Text
import ResidueAlgebra.Proofs.Prime.Combine
import ResidueAlgebra.Proofs.Prime.Complete
import ResidueAlgebra.Proofs.Prime.Factor
import ResidueAlgebra.Proofs.Prime.Primality
import ResidueAlgebra.Proofs.Prime.Smooth
import ResidueAlgebra.Proofs.Residue.LeastResidue
import ResidueAlgebra.Proofs.Residue.Ring
import ResidueAlgebra.Proofs.Residue.Row
import ResidueAlgebra.Proofs.Text.Integer
import ResidueAlgebra.Residue
import ResidueAlgebra.Residue.Inverse
import ResidueAlgebra.Residue.Row
import ResidueAlgebra.Text.Binary64
import ResidueAlgebra.Text.Integer
import ResidueAlgebra.Text.Split
import ResidueAlgebra.Trace
import ResidueAlgebra.Word
