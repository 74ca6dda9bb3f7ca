import YingSma.ContentCacheSegments
import YingSma.MessageRoundTrip
import YingSma.ContentHelperEncoding
import YingSma.CcnNode
import YingSma.ContentHelperPublish
import YingSma.ContentHelperSweeps
import YingSma.ContentHelperLocalOnly
import YingSma.ContentHelperKept
import YingSma.ContentDiscovery
import YingSma.AnnouncementRate
import YingSma.InterestAnnounce
import YingSma.InterestCounter
import YingSma.AnnouncementNetwork
import YingSma.InterestNetwork
import YingSma.InterestRefresh
import YingSma.ForwardSchedulerFrozen
import YingSma.RequestNetwork
import YingSma.ContentCacheFrozen
import YingSma.ContentCacheQueries
import YingSma.ContentHelperSlots
import YingSma.ContentHelperFetching
import YingSma.ContentHelperRequested
import YingSma.ContentHelperRemote
import YingSma.InterestRotation
import YingSma.BlockRequestTtl
import YingSma.BlockRefOrder
import YingSma.CircularBuffer
import YingSma.Threadpool
import YingSma.DelayQueue
import YingSma.BlockRequestShares
import YingSma.RingBufferQueue
import YingSma.ContentProvenance
import YingSma.WorkerPoolJoin
import YingSma.RwsMutex
import YingSma.DelayQueueThreads
import YingSma.NodeNetworkRequests
import YingSma.ContentHelperLoop
import YingSma.NodeContainerActions
