import PagedAlloc.Arena.Read
import PagedAlloc.Diagnostics
import PagedAlloc.Fixed.Basic
import PagedAlloc.Segregated.Basic
import PagedAlloc.Proofs.Chain
import PagedAlloc.Proofs.Tiling
import PagedAlloc.Proofs.BlockSteps
import PagedAlloc.Proofs.Procedures
import PagedAlloc.Proofs.CategoryChunks
import PagedAlloc.Proofs.LargestFree
import PagedAlloc.Proofs.SegregatedState
import PagedAlloc.Proofs.SegregatedSteps
import PagedAlloc.Proofs.ArenaRuns
import PagedAlloc.Proofs.BlockStructure
import PagedAlloc.Proofs.PayloadIntegrity
import PagedAlloc.Proofs.ArenaBuilds
import PagedAlloc.Proofs.Transparency
import PagedAlloc.Proofs.FreePartition
import PagedAlloc.Proofs.FixedIsolation
import PagedAlloc.Proofs.Merging
import PagedAlloc.Proofs.Reallocation
import PagedAlloc.Proofs.Accounts
import PagedAlloc.Proofs.Counters
import PagedAlloc.Proofs.FaultFreedom
import PagedAlloc.Proofs.FreeOrder
import PagedAlloc.Proofs.DoubleFrees
import PagedAlloc.Proofs.OwnBytes
import PagedAlloc.Proofs.FreeStacks
import PagedAlloc.Proofs.FirstFit
import PagedAlloc.Proofs.Conservation
import PagedAlloc.Proofs.BuildProtocol
import PagedAlloc.Proofs.KeptBytes
import PagedAlloc.Proofs.Texts
import PagedAlloc.Proofs.StackDiscipline
import PagedAlloc.Proofs.RoundTrips
import PagedAlloc.Proofs.UnusedBytes
import PagedAlloc.Proofs.LiveRegions
import PagedAlloc.Proofs.OwnedRegions
import PagedAlloc.Proofs.RegionResizing
import PagedAlloc.Proofs.Ownership
import PagedAlloc.Proofs.Bounds
import PagedAlloc.Proofs.CategorySeparation
import PagedAlloc.Proofs.ResizingInPlace
import PagedAlloc.Proofs.Undoing
import PagedAlloc.Proofs.Trimming
import PagedAlloc.Proofs.Rounding
import PagedAlloc.Proofs.FixedAnswers
import PagedAlloc.Proofs.FixedConstruction
import PagedAlloc.Proofs.ChunksForNeed
import PagedAlloc.Proofs.Rejections
import PagedAlloc.Proofs.CloseFits
import PagedAlloc.Proofs.ExactReading
import PagedAlloc.Proofs.RoomDemands
import PagedAlloc.Proofs.OwnedRequests
import PagedAlloc.Proofs.GeometricGrowth
import PagedAlloc.Proofs.HarmlessStops
import PagedAlloc.Proofs.SizeRequests
import PagedAlloc.Proofs.StaleLinks
import PagedAlloc.Proofs.FixedBuffers
import PagedAlloc.Proofs.Reservations
import PagedAlloc.Proofs.Shrinking
import PagedAlloc.Proofs.LeastSizes
