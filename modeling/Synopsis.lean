import Synopsis.Cardinality.HyperLogLog
import Synopsis.Frequency.HeavyHitters
import Synopsis.Frequency.Snapshot
import Synopsis.Presence.CountingBloom
import Synopsis.Presence.Cuckoo
import Synopsis.Presence.DeletableBloom
import Synopsis.Presence.Inverse
import Synopsis.Presence.ScalableBloom
import Synopsis.Presence.StableBloom
import Synopsis.Similarity.MinHash
import Synopsis.Proofs.Cardinality.HashBits
import Synopsis.Proofs.Cardinality.Lineages
import Synopsis.Proofs.Frequency.HeaviestItems
import Synopsis.Proofs.Frequency.RestoredSketches
import Synopsis.Proofs.Frequency.StoredSketches
import Synopsis.Proofs.MergedStreams
import Synopsis.Proofs.Presence.CountingLoads
import Synopsis.Proofs.Presence.CuckooBag
import Synopsis.Proofs.Presence.CuckooLosses
import Synopsis.Proofs.Presence.DeletableErasures
import Synopsis.Proofs.Presence.PartitionedBits
import Synopsis.Proofs.Presence.ScalableSeries
import Synopsis.Proofs.Presence.StableFading
import Synopsis.Proofs.Packed.BitFields
import Synopsis.Proofs.Packed.ListedCounters
import Synopsis.Proofs.Packed.CellLoops
import Synopsis.Proofs.Presence.ItemUnions
import Synopsis.Proofs.Presence.BloomVariants
import Synopsis.Proofs.Presence.ItemBits
import Synopsis.Proofs.Presence.InverseLedger
import Synopsis.Proofs.Frequency.CountMinLineages
import Synopsis.Proofs.Frequency.TrackedMoments
import Synopsis.Proofs.Frequency.RefreshedEntries
import Synopsis.Proofs.Frequency.HeapOrder
import Synopsis.Proofs.ClearedStructures
import Synopsis.Proofs.Similarity.Signatures
import Synopsis.Proofs.Presence.CuckooAccounts
import Synopsis.Proofs.Presence.CuckooCapacity
import Synopsis.Proofs.Presence.FusedInsertions
import Synopsis.Proofs.Encoding.Forms
import Synopsis.Proofs.Frequency.CanonicalBytes
import Synopsis.Proofs.Hashing.Progressions
import Synopsis.Proofs.Presence.FirstInsertions
import Synopsis.Proofs.Presence.LastWriters
import Synopsis.Proofs.Similarity.SharedMinimisers
import Synopsis.Proofs.Presence.UnfailingRequests
import Synopsis.Proofs.Presence.DeletableRegions
