import SimplexScript.Complex.Algebra
import SimplexScript.Complex.Basic
import SimplexScript.Complex.Summary
import SimplexScript.Document.Check
import SimplexScript.Document.Encode
import SimplexScript.Document.Program
import SimplexScript.Fault
import SimplexScript.Homology
import SimplexScript.Json.Basic
import SimplexScript.Json.Reader
import SimplexScript.Json.Token
import SimplexScript.Language.Apply
import SimplexScript.Language.Eval
import SimplexScript.Language.Exec
import SimplexScript.Language.State
import SimplexScript.Language.Value
import SimplexScript.Listing
import SimplexScript.Number.Basic
import SimplexScript.Number.Decimal
import SimplexScript.Partition
import SimplexScript.Proofs.Complex.Canonical
import SimplexScript.Proofs.Complex.DisjointGluing
import SimplexScript.Proofs.Complex.DisjointJoin
import SimplexScript.Proofs.Complex.GlueNames
import SimplexScript.Proofs.Complex.Gluing
import SimplexScript.Proofs.Complex.Graph
import SimplexScript.Proofs.Complex.Join
import SimplexScript.Proofs.Complex.Names
import SimplexScript.Proofs.Complex.Outcomes
import SimplexScript.Proofs.Complex.Simplices
import SimplexScript.Proofs.Complex.Union
import SimplexScript.Proofs.Document.Forms
import SimplexScript.Proofs.Document.Grammar
import SimplexScript.Proofs.Document.Parts
import SimplexScript.Proofs.Document.Programs
import SimplexScript.Proofs.Document.Runs
import SimplexScript.Proofs.Document.Summaries
import SimplexScript.Proofs.Homology.Betti
import SimplexScript.Proofs.Homology.BoundaryMatrix
import SimplexScript.Proofs.Homology.Chains
import SimplexScript.Proofs.Homology.Components
import SimplexScript.Proofs.Homology.Cones
import SimplexScript.Proofs.Homology.Counts
import SimplexScript.Proofs.Homology.Cycles
import SimplexScript.Proofs.Homology.Euler
import SimplexScript.Proofs.Homology.Faces
import SimplexScript.Proofs.Homology.Incidence
import SimplexScript.Proofs.Homology.JoinFaces
import SimplexScript.Proofs.Homology.PointGluings
import SimplexScript.Proofs.Homology.Rank
import SimplexScript.Proofs.Homology.Relabelling
import SimplexScript.Proofs.Json.Texts
import SimplexScript.Proofs.Language.Arithmetic
import SimplexScript.Proofs.Language.CanonicalValues
import SimplexScript.Proofs.Language.Coupling
import SimplexScript.Proofs.Language.Discipline
import SimplexScript.Proofs.Language.Evaluation
import SimplexScript.Proofs.Language.Exchange
import SimplexScript.Proofs.Language.Execution
import SimplexScript.Proofs.Language.FirstOrder
import SimplexScript.Proofs.Language.Footprint
import SimplexScript.Proofs.Language.Formed
import SimplexScript.Proofs.Language.FreshNumbers
import SimplexScript.Proofs.Language.FreshVertices
import SimplexScript.Proofs.Language.Growth
import SimplexScript.Proofs.Language.Limits
import SimplexScript.Proofs.Language.Lockstep
import SimplexScript.Proofs.Language.Machine
import SimplexScript.Proofs.Language.Operators
import SimplexScript.Proofs.Language.Outcome
import SimplexScript.Proofs.Language.Picking
import SimplexScript.Proofs.Language.Reads
import SimplexScript.Proofs.Language.Renaming
import SimplexScript.Proofs.Language.Report
import SimplexScript.Proofs.Language.StoreSafety
import SimplexScript.Proofs.Language.Tandem
import SimplexScript.Proofs.Language.Termination
import SimplexScript.Proofs.Language.Trail
import SimplexScript.Proofs.Language.VertexOrder
import SimplexScript.Proofs.Listing
import SimplexScript.Proofs.Number.Counting
import SimplexScript.Proofs.Number.Digits
import SimplexScript.Proofs.Number.Exact
import SimplexScript.Proofs.Partition.Forest
import SimplexScript.Proofs.Partition.Merge
import SimplexScript.Proofs.Partition.Ranks
import SimplexScript.Proofs.Partition.Relinking
import SimplexScript.Proofs.Partition.Replay
import SimplexScript.Proofs.Partition.Requests
import SimplexScript.Proofs.Partition.Union
import SimplexScript.Proofs.Record
import SimplexScript.Proofs.Simplex.FaceOrder
import SimplexScript.Proofs.Simplex.Key
import SimplexScript.Proofs.Simplex.KeyText
import SimplexScript.Proofs.Table
import SimplexScript.Table
import SimplexScript.Text
