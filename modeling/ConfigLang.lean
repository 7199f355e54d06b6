import ConfigLang.Number.Integer
import ConfigLang.Number.Shortest
import ConfigLang.Text.Position
import ConfigLang.Text.Quoted
import ConfigLang.Token.Scan
import ConfigLang.Tree
import ConfigLang.Tree.Expression
import ConfigLang.Tree.Walk
import ConfigLang.Tree.Statement
import ConfigLang.Document
import ConfigLang.Document.Digest
import ConfigLang.Document.Distinct
import ConfigLang.Document.Parse
import ConfigLang.Document.Layout
import ConfigLang.Value
import ConfigLang.Evaluation
import ConfigLang.Execution
import ConfigLang.Operators
import ConfigLang.Recorder
import ConfigLang.Proofs.Lookups
import ConfigLang.Proofs.Lowering
import ConfigLang.Proofs.Completeness
import ConfigLang.Proofs.RoundTrip
import ConfigLang.Proofs.Pruning
import ConfigLang.Proofs.Schedule
import ConfigLang.Proofs.Lines
import ConfigLang.Proofs.Places
import ConfigLang.Proofs.Resuming
import ConfigLang.Proofs.Composition
import ConfigLang.Proofs.Recovery
import ConfigLang.Proofs.Spelling
import ConfigLang.Proofs.Conservative
import ConfigLang.Proofs.Image
import ConfigLang.Proofs.Unlimited
import ConfigLang.Proofs.Residual
import ConfigLang.Proofs.Expressing
import ConfigLang.Proofs.Offending
import ConfigLang.Proofs.Leaves
import ConfigLang.Proofs.Limits
import ConfigLang.Proofs.Depth
import ConfigLang.Proofs.Inline
import ConfigLang.Proofs.Spacing
import ConfigLang.Proofs.Respacing
import ConfigLang.Proofs.Relayout
import ConfigLang.Proofs.LineFaults
import ConfigLang.Proofs.Boundaries
import ConfigLang.Proofs.Nesting
import ConfigLang.Proofs.Chains
import ConfigLang.Proofs.Kinds
import ConfigLang.Proofs.Arithmetic
import ConfigLang.Proofs.Ordering
import ConfigLang.Proofs.Ascending
import ConfigLang.Proofs.FaultOrder
import ConfigLang.Proofs.ByteOrder
import ConfigLang.Proofs.Enlarging
import ConfigLang.Proofs.Objects
import ConfigLang.Proofs.Indexing
import ConfigLang.Proofs.Derivation
import ConfigLang.Proofs.Legible
import ConfigLang.Proofs.Coloring
import ConfigLang.Proofs.Printing
import ConfigLang.Proofs.Indentation
import ConfigLang.Proofs.Hashing
import ConfigLang.Proofs.Walking
import ConfigLang.Proofs.Progress
import ConfigLang.Proofs.Surveying
