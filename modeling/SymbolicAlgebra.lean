import SymbolicAlgebra.Builtin
import SymbolicAlgebra.Calculus.Derivative
import SymbolicAlgebra.Calculus.DifferentialEquation
import SymbolicAlgebra.Calculus.Integral
import SymbolicAlgebra.Calculus.Laplace
import SymbolicAlgebra.Calculus.Leftover
import SymbolicAlgebra.Calculus.LinearOperator
import SymbolicAlgebra.Error
import SymbolicAlgebra.Evaluation.Evaluator
import SymbolicAlgebra.Evaluation.Memo
import SymbolicAlgebra.Evaluation.Tally
import SymbolicAlgebra.Expansion
import SymbolicAlgebra.Expr.Basic
import SymbolicAlgebra.Expr.Canonical
import SymbolicAlgebra.Expr.Display
import SymbolicAlgebra.Expr.Number
import SymbolicAlgebra.Expr.Occurrence
import SymbolicAlgebra.Expr.Order
import SymbolicAlgebra.Expr.Traversal
import SymbolicAlgebra.Factorization
import SymbolicAlgebra.Interpolation
import SymbolicAlgebra.LinearCombination
import SymbolicAlgebra.LinearSystem
import SymbolicAlgebra.Matching
import SymbolicAlgebra.Matrix
import SymbolicAlgebra.Namespace
import SymbolicAlgebra.Native
import SymbolicAlgebra.Number.Binary64
import SymbolicAlgebra.Number.Decimal
import SymbolicAlgebra.Number.LogOnePlus
import SymbolicAlgebra.Number.Numeral
import SymbolicAlgebra.Number.Rational
import SymbolicAlgebra.Numeric.Code
import SymbolicAlgebra.Numeric.Hypotenuse
import SymbolicAlgebra.Numeric.Legendre
import SymbolicAlgebra.Numeric.LegendreExpansion
import SymbolicAlgebra.Numeric.LinearAlgebra
import SymbolicAlgebra.Numeric.LogLevel
import SymbolicAlgebra.Numeric.Newton
import SymbolicAlgebra.Numeric.Quadrature
import SymbolicAlgebra.Numeric.Routine
import SymbolicAlgebra.Numeric.SingularValues
import SymbolicAlgebra.PartialFractions
import SymbolicAlgebra.Polynomial
import SymbolicAlgebra.Proofs.Cancellation
import SymbolicAlgebra.Proofs.Differentiation
import SymbolicAlgebra.Proofs.Idempotence
import SymbolicAlgebra.Proofs.LikeTerms
import SymbolicAlgebra.Proofs.Matching
import SymbolicAlgebra.Proofs.Separation
import SymbolicAlgebra.Proofs.Solve
import SymbolicAlgebra.Proofs.Soundness
import SymbolicAlgebra.Proofs.Unfolding
import SymbolicAlgebra.Reduction.Rule
import SymbolicAlgebra.Reduction.RuleSet
import SymbolicAlgebra.Simplification.Equivalence
import SymbolicAlgebra.Simplification.Simplify
import SymbolicAlgebra.Substitution
import SymbolicAlgebra.Text.Blank
import SymbolicAlgebra.Text.LetterCase
import SymbolicAlgebra.Unfolding
import SymbolicAlgebra.Proofs.Answers
import SymbolicAlgebra.Proofs.Inverse
import SymbolicAlgebra.Proofs.Deferral
import SymbolicAlgebra.Proofs.RuleSet
import SymbolicAlgebra.Proofs.OperatorRules
import SymbolicAlgebra.Proofs.Division
import SymbolicAlgebra.Proofs.Equivalents
import SymbolicAlgebra.Proofs.Antiderivatives
import SymbolicAlgebra.Proofs.ExpansionComplete
import SymbolicAlgebra.Proofs.Reading
import SymbolicAlgebra.Proofs.Factoring
import SymbolicAlgebra.Proofs.Occurrence
import SymbolicAlgebra.Proofs.Triangular
import SymbolicAlgebra.Proofs.Counts
import SymbolicAlgebra.Proofs.FixedPoints
import SymbolicAlgebra.Proofs.SelfMatch
import SymbolicAlgebra.Proofs.Linearity
import SymbolicAlgebra.Proofs.Decomposition
import SymbolicAlgebra.Proofs.Roots
import SymbolicAlgebra.Proofs.SolverHistory
import SymbolicAlgebra.Proofs.Inlining
