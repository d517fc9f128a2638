import IndexingService.Multihash
import IndexingService.Types
import IndexingService.JobKey
import IndexingService.Handler
import IndexingService.SerialWalk
import IndexingService.ParallelWalk
import IndexingService.Targets
import IndexingService.Closure
import IndexingService.Correctness
import IndexingService.Termination
import IndexingService.Query
import IndexingService.ParallelTermination
import IndexingService.Safety
import IndexingService.ParallelTrace
import IndexingService.Service
import IndexingService.Cbor
import IndexingService.ProviderResults
import IndexingService.Publisher
