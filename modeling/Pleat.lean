import Pleat.Linear.Echelon
import Pleat.Linear.Freedom
import Pleat.Bits.Row
import Pleat.Bits.Table
import Pleat.Data.LittleEndian
import Pleat.Data.StablePartition
import Pleat.Data.Capacity
import Pleat.Data.Retry
import Pleat.Data.Interleaving
import Pleat.Data.XorMultiply
import Pleat.Data.Mixing
import Pleat.Data.CacheLines
import Pleat.Data.Deferral
import Pleat.Data.Rounding
import Pleat.Data.Binary64
import Pleat.Data.Calls
import Pleat.Data.RangeReduction
import Pleat.Machine
import Pleat.Hash
import Pleat.Keys
import Pleat.Plan
import Pleat.Sizing
import Pleat.Ranges
import Pleat.Batch
import Pleat.BackSubstitution
import Pleat.Query
import Pleat.Solving
import Pleat.Homogeneous.Banding
import Pleat.Homogeneous.Solution
import Pleat.Homogeneous.Filter
import Pleat.Homogeneous.Worker
import Pleat.Homogeneous.Parallel
import Pleat.Homogeneous.RowSpace
import Pleat.Homogeneous.FalsePositives
import Pleat.Standard.Banding
import Pleat.Standard.Solution
import Pleat.Standard.Build
import Pleat.Standard.Seed
import Pleat.Standard.Worker
import Pleat.Standard.Parallel
import Pleat.Standard.Filter
import Pleat.Standard.RowSpace
import Pleat.Assignment
import Pleat.Elimination
import Pleat.Homogeneous.Simulation
import Pleat.Standard.Simulation
import Pleat.Simulation
import Pleat.Prefetch
import Pleat.Interleaved
import Pleat.Format
import Pleat.Checked.Encode
import Pleat.Bytes
import Pleat.Decoding
import Pleat.Canonical
import Pleat.Corruption
import Pleat.Checked.Arithmetic
import Pleat.Checked.Pleating
import Pleat.Checked.Ranges
import Pleat.Checked.Decode
import Pleat.Checked.Query
import Pleat.Checked.Safety
import Pleat.Split
import Pleat.Margin
import Pleat.Standard.Dependence
import Pleat.Overhead
import Pleat.Checked.Banding
import Pleat.Checked.Buckets
import Pleat.Checked.Workers
import Pleat.Checked.Build
import Pleat.Width
import Pleat.Growth
import Pleat.Seeds
import Pleat.DecodeErrors
import Pleat.Lifecycle
