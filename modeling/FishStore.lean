import FishStore.FieldPaths
import FishStore.HashChains
import FishStore.EpochSafety
import FishStore.PhaseInstances
import FishStore.PhaseProgress
import FishStore.GrowLive
import FishStore.SafeBoundary
import FishStore.RegionOrder
import FishStore.SessionPending
import FishStore.VersionShift
import FishStore.RecordVersions
import FishStore.CleanBuckets
import FishStore.ContinuedSessions
import FishStore.PageWalks
import FishStore.QuietSplit
import FishStore.TruncatedData
import FishStore.ReissuedReads
import FishStore.TableImage
import FishStore.OverflowAddresses
import FishStore.SegmentBundle
import FishStore.EzPsfLiterals
import FishStore.EzPsfSymbols
import FishStore.StrInfo
import FishStore.ThreadIds
import FishStore.ReplayPipeline
