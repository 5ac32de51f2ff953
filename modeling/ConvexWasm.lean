import ConvexWasm.Retention.Maintenance
import ConvexWasm.Compiler.CapabilitySoundness
import ConvexWasm.Compiler.EffectSpecialization
import ConvexWasm.Compiler.CacheRuns
import ConvexWasm.Compiler.BatchPairing
import ConvexWasm.Compiler.CapabilityClosing
import ConvexWasm.Compiler.FingerprintSeparation
import ConvexWasm.Compiler.BatchSchedule
import ConvexWasm.Compiler.SummaryCacheTolerance
import ConvexWasm.Compiler.DatabaseMeaning
import ConvexWasm.Guest.TaggedJsonCodec
import ConvexWasm.CacheLock.Guarantees
import ConvexWasm.Guest.OperationDispatch
import ConvexWasm.Guest.QueryStreamRuns
import ConvexWasm.Runtime.InvocationIsolation
import ConvexWasm.Runtime.ChunkInitializationRuns
import ConvexWasm.ShardPlanner.Eligibility
import ConvexWasm.ShardPlanner.StableRoles
import ConvexWasm.Selector.LeafAgreement
import ConvexWasm.LaunchScheduler.Settling
import ConvexWasm.Replay.BulkQueries
import ConvexWasm.Replay.SyscallRoundTrip
import ConvexWasm.IncrementalCache.SetRepresentation
import ConvexWasm.IncrementalCache.Authenticity
import ConvexWasm.Compiler.RecursiveCallables
import ConvexWasm.CohortSchedule.BuildPoolRuns
import ConvexWasm.Compiler.GuestClosure
import ConvexWasm.Compiler.FixedPromiseAll
import ConvexWasm.Compiler.TravelledCalls
import ConvexWasm.EntryGrouping.OrderIndependence
import ConvexWasm.RegistryTransfer.Completeness
import ConvexWasm.Compiler.BindingClosure
import ConvexWasm.Compiler.CensusExactness
import ConvexWasm.Compiler.CapabilitySpecialization
import ConvexWasm.ArtifactMaterial.BoundedMap
