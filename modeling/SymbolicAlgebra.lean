import SymbolicAlgebra.Double.Reading
import SymbolicAlgebra.Number.Reading
import SymbolicAlgebra.Program
import SymbolicAlgebra.Proofs.Template
import SymbolicAlgebra.Proofs.Session
import SymbolicAlgebra.Proofs.Idempotence
import SymbolicAlgebra.Proofs.Soundness
import SymbolicAlgebra.Proofs.Locality
import SymbolicAlgebra.Proofs.Commutation
import SymbolicAlgebra.Proofs.Confluence
import SymbolicAlgebra.Proofs.Limit
import SymbolicAlgebra.Proofs.Stillness
import SymbolicAlgebra.Proofs.Statement
import SymbolicAlgebra.Proofs.Acyclicity
import SymbolicAlgebra.Proofs.Compositional
import SymbolicAlgebra.Proofs.Persistence
import SymbolicAlgebra.Proofs.CanonicalForm
import SymbolicAlgebra.Proofs.Weight
import SymbolicAlgebra.Proofs.Equations
import SymbolicAlgebra.Proofs.Unchanged
import SymbolicAlgebra.Proofs.History
import SymbolicAlgebra.Proofs.Composition
import SymbolicAlgebra.Proofs.Representation
import SymbolicAlgebra.Proofs.Quotients
import SymbolicAlgebra.Proofs.Powers
import SymbolicAlgebra.Proofs.Ambiguity
import SymbolicAlgebra.Proofs.CallByName
import SymbolicAlgebra.Proofs.Nesting
import SymbolicAlgebra.Proofs.Folding
import SymbolicAlgebra.Proofs.Unary
import SymbolicAlgebra.Proofs.Overloads
import SymbolicAlgebra.Proofs.Vectors
import SymbolicAlgebra.Proofs.Failures
import SymbolicAlgebra.Proofs.Depth
import SymbolicAlgebra.Proofs.Stored
import SymbolicAlgebra.Proofs.Arrays
import SymbolicAlgebra.Proofs.OrderStatistics
import SymbolicAlgebra.Proofs.Arrangement
import SymbolicAlgebra.Proofs.Descent
import SymbolicAlgebra.Proofs.Conservation
