import Irys.Lib.Machine
import Irys.Lib.Sha256
import Irys.Merkle.Layered
import Irys.Merkle.Opening
import Irys.Merkle.Stream
import Irys.Merkle.Perfect
import Irys.DataTree.Geometry
import Irys.DataTree.Hash
import Irys.DataTree.Shape
import Irys.DataTree.Chunk
import Irys.DataTree.Builder
import Irys.DataTree.Proofs
import Irys.DataTree.Verify
import Irys.DataTree.Completeness
import Irys.DataTree.Streaming
import Irys.DataTree.Binding
import Irys.DataTree.Soundness
import Irys.DataTree.Alias
import Irys.DataTree.SizeProof
import Irys.Chain.Types
import Irys.Lib.Loops
import Irys.Lib.Rows
import Irys.Lib.Keyed
import Irys.Lib.Finmap
import Irys.Lib.Registry
import Irys.Lib.XorAdditive
import Irys.Lib.Layout
import Irys.Lib.Mutable
import Irys.Chain.Stores
import Irys.Chain.IndexView
import Irys.Ledger.Slots
import Irys.Ledger.Turn
import Irys.Ledger.Ledgers
import Irys.Ledger.Expiry
import Irys.Ledger.Order
import Irys.Ledger.View
import Irys.Epoch.Snapshot
import Irys.Epoch.Commitments
import Irys.Epoch.PreviousBlock
import Irys.Epoch.Refine
import Irys.Epoch.Lockstep
import Irys.Epoch.PreCascade
import Irys.Epoch.Headroom
import Irys.Epoch.Rng
import Irys.Epoch.Holdings
import Irys.Epoch.Backfill
import Irys.Epoch.Pledges
import Irys.Epoch.Booked
import Irys.Epoch.Collected
import Irys.Epoch.Refusals
import Irys.Epoch.Assignment
import Irys.Expiry.SubmitRange
import Irys.Epoch.Chain
import Irys.Epoch.Restart
import Irys.Epoch.Promotion
import Irys.Epoch.ExpiredPrefix
import Irys.Epoch.Healing
import Irys.Expiry.Walk
import Irys.Expiry.Inclusion
import Irys.Expiry.ChainView
import Irys.Expiry.Sweep
import Irys.Expiry.Collect
import Irys.Expiry.Agreement
import Irys.Mining.Ranges
import Irys.Mining.Rotation
import Irys.Mining.Sampling
import Irys.Poa.Bounds
import Irys.Packing.Chunks
import Irys.Lib.Forest
import Irys.Lib.Leader
import Irys.Lib.Buckets
import Irys.BlockTree.Tree
import Irys.BlockTree.Shape
import Irys.BlockTree.Canonical
import Irys.BlockTree.CommonAncestor
import Irys.BlockTree.Remove
import Irys.BlockTree.TipMove
import Irys.BlockTree.Service
import Irys.BlockTree.Walks
import Irys.BlockTree.Handlers
import Irys.BlockTree.Runs
import Irys.BlockTree.FirstSeen
import Irys.BlockTree.ForkChoice
import Irys.BlockTree.Split
import Irys.BlockTree.Pruning
import Irys.Migration.Service
import Irys.Migration.Simulation
import Irys.Migration.Chain
import Irys.Migration.Stores
import Irys.Migration.Supply
import Irys.Migration.Inclusions
import Irys.Migration.Lookups
import Irys.Migration.Restart
import Irys.Migration.FirstSeen
import Irys.Migration.Runs
import Irys.Lib.Tally
import Irys.Pricing.FixedPoint
import Irys.Pricing.Ema
import Irys.Fees.TermFees
import Irys.Fees.Settlement
import Irys.Lib.ExpSeries
import Irys.Emission.HalvingCurve
import Irys.Lib.Trace
import Irys.Lib.Rlp
import Irys.Vdf.Batches
import Irys.Vdf.Buffer
import Irys.Vdf.Hashing
import Irys.Vdf.Seeds
import Irys.Vdf.Steps
import Irys.Vdf.Window
import Irys.Lib.Tiling
import Irys.Sync.Hints
import Irys.Merkle.Routed
import Irys.DataPath.Path
import Irys.DataPath.Tree
import Irys.Signing.Header
import Irys.Signing.Canonical
