import LightningH3.AdalnCacheRuns
import LightningH3.CubeTopK
import LightningH3.LocalEmbeddingShards
import LightningH3.PackedPartition
import LightningH3.PackedAgree
import LightningH3.UlyssesLossless
import LightningH3.QkvLoaderAgree
import LightningH3.VaeTilesSeamless
import LightningH3.VaeTemporalChunks
import LightningH3.ReferenceAligned
import LightningH3.UnifiedPoolRuns
import LightningH3.RouterHashes
import LightningH3.PagedKernelsAgree
import LightningH3.SwaAllocatorAtomic
import LightningH3.SchedulerFairness
import LightningH3.SchedulerSplit
import LightningH3.DiffusionServerLoop
import LightningH3.DiffusionServerPrealloc
import LightningH3.DiffusionServerGlmPlaces
import LightningH3.KvIndexRemoval
import LightningH3.KvHashTreeMirror
import LightningH3.NgramMatchRuns
import LightningH3.TensorCodecRoundTrip
import LightningH3.NgramTrieGuard
import LightningH3.SubblockMask
import LightningH3.LayerwiseOffload
import LightningH3.CanvasShape
import LightningH3.UlyssesAttention
