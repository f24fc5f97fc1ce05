import QfsRepair.ErasureCode.Variants
import QfsRepair.Striping.ChunkSizes
import QfsRepair.Striping.StripeRuns
import QfsRepair.Striping.StripeIdentifiers
import QfsRepair.Striping.TailZeros
import QfsRepair.Striping.LostChunks
import QfsRepair.Meta.AttributeReplay
import QfsRepair.Meta.Truncation
import QfsRepair.ChunkMap.ServerMapRuns
import QfsRepair.HashTable.FiniteMap
import QfsRepair.Meta.SpaceRuns
import QfsRepair.Meta.PathSearch
import QfsRepair.Meta.PathRuns
import QfsRepair.Repair.PlanTree
import QfsRepair.Repair.DestinationRuns
import QfsRepair.Repair.OperationQueue
import QfsRepair.Repair.OperationList
import QfsRepair.Repair.RepairLoad
import QfsRepair.Repair.BlockRecovery
import QfsRepair.ChunkServer.CacheAdvertisement
import QfsRepair.ChunkServer.LeaseClerk
import QfsRepair.Checksum.Blocks
import QfsRepair.Token.ChunkAccessToken
import QfsRepair.Container.LinkedRing
import QfsRepair.Container.IOBuffer
