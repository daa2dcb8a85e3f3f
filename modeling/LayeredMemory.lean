import LayeredMemory.AddressSpaces
import LayeredMemory.Memory.Flatten
import LayeredMemory.Proofs.Bytes
import LayeredMemory.Proofs.IntervalSet.Membership
import LayeredMemory.Proofs.Expr.Evaluation
import LayeredMemory.Proofs.Expr.Folding
import LayeredMemory.Proofs.Expr.Composition
import LayeredMemory.Proofs.Expr.Mentions
import LayeredMemory.Proofs.Contents
import LayeredMemory.Proofs.Sparse.Entries
import LayeredMemory.Proofs.Sparse.Overwrite
import LayeredMemory.Proofs.Sparse.Answers
import LayeredMemory.Proofs.Sparse.LastWrite
import LayeredMemory.Proofs.Sparse.Mentions
import LayeredMemory.Proofs.Image.Blocks
import LayeredMemory.Proofs.Image.Overwrite
import LayeredMemory.Proofs.Image.Coalesce
import LayeredMemory.Proofs.Image.State
import LayeredMemory.Proofs.Image.Answers
import LayeredMemory.Proofs.Image.LastWrite
import LayeredMemory.Proofs.Image.Runs
import LayeredMemory.Proofs.Memory.ReadThrough
import LayeredMemory.Proofs.Memory.Answers
import LayeredMemory.Proofs.Memory.History
import LayeredMemory.Proofs.Memory.Queries
import LayeredMemory.Proofs.Memory.Equivalence
import LayeredMemory.Proofs.Memory.FailedStores
import LayeredMemory.Proofs.Memory.Chunks
import LayeredMemory.Proofs.Memory.Flatten
import LayeredMemory.Proofs.Memory.FlattenedSymbols
import LayeredMemory.Proofs.Spaces.FailedStores
import LayeredMemory.Proofs.IntervalSet.Equality
import LayeredMemory.Proofs.IntervalSet.Difference
import LayeredMemory.Proofs.IntervalSet.Intersection
import LayeredMemory.Proofs.IntervalSet.Union
import LayeredMemory.Proofs.Expr.NormalForm
import LayeredMemory.Proofs.Constant.Arithmetic
import LayeredMemory.Proofs.Constant.Shifts
import LayeredMemory.Proofs.Memory.Mentions
import LayeredMemory.Proofs.Memory.Visible
import LayeredMemory.Proofs.Memory.Nesting
import LayeredMemory.Proofs.Sparse.Frame
import LayeredMemory.Proofs.Memory.Frame
import LayeredMemory.Proofs.Memory.ReadBack
import LayeredMemory.Proofs.Checked.Intervals
import LayeredMemory.Proofs.Checked.Words
import LayeredMemory.Proofs.Checked.Sparse
import LayeredMemory.Proofs.Checked.Image
import LayeredMemory.Proofs.Checked.Tree
import LayeredMemory.Proofs.Sparse.Runs
import LayeredMemory.Proofs.Spaces.Independence
import LayeredMemory.Proofs.Memory.Plain
import LayeredMemory.Proofs.Session.Basic
import LayeredMemory.Proofs.Session.Diagnostics
import LayeredMemory.Proofs.Session.UnknownKeys
import LayeredMemory.Proofs.Expr.Locality
import LayeredMemory.Proofs.Image.Construction
import LayeredMemory.Proofs.Memory.AnyDevice
import LayeredMemory.Proofs.Checked.Flatten
import LayeredMemory.Proofs.Memory.FlattenTwice
import LayeredMemory.Proofs.Sparse.Scans
import LayeredMemory.Proofs.Image.ChunkedWrite
import LayeredMemory.Proofs.Expr.Cutting
