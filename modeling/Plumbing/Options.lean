/-!
# Options and defaults

The defaults of the library, and the options of its readers and writers. A segment size of 0
reads as 1: a segment always has room for a byte. Options compare equal to their defaults field
by field, with the size as set, not as read.
-/

namespace Plumbing

/-- The segment size of a broadcast, 8 KiB. -/
def defaultBufferSize : Nat := 8 * 1024

/-- The segment size of a prefetching reader, 2 MiB. -/
def defaultPrefetchSize : Nat := 2 * 1024 * 1024

/-- The number of segments queued ahead of a reader. -/
def defaultReadQueueLen : Nat := 32

/-- The number of items queued to a sink's worker. -/
def defaultWriteQueueLen : Nat := 32

/-- The bytes a scanner holds before it overflows, 64 KiB. -/
def defaultMaxScanSize : Nat := 64 * 1024

/-- The options of a reader that reads in segments: their size as set, and how many are queued. -/
structure SegmentOptions where
  segmentSize : Nat
  queueLen : Nat
  deriving DecidableEq, Repr

namespace SegmentOptions

/-- The defaults of a prefetching reader. -/
def prefetch : SegmentOptions := ⟨defaultPrefetchSize, defaultReadQueueLen⟩

/-- The defaults of a broadcast. -/
def broadcast : SegmentOptions := ⟨defaultBufferSize, defaultReadQueueLen⟩

/-- The segment size in use: 0 reads as 1. -/
def segmentLen (o : SegmentOptions) : Nat := if o.segmentSize = 0 then 1 else o.segmentSize

end SegmentOptions

/-- The options of a fan-out writer. -/
structure WriteOptions where
  queueLen : Nat
  deriving DecidableEq, Repr

/-- The defaults of a fan-out writer. -/
def WriteOptions.default : WriteOptions := ⟨defaultWriteQueueLen⟩

end Plumbing
