/-!
# Segment queues

A segment queue holds byte segments in arrival order and reads them as one stream of bytes:
`offset` bytes of the front segment are already read, and `len` counts the bytes not yet read.
Its value as a byte FIFO is `toBytes`, the segments joined with the first `offset` bytes
dropped. `readInto k` takes the first `min k len` bytes of that value, moving the offset within
the front segment and dropping the segments read to their end; `readRelease k` reads the same
bytes and also hands back, in order, each segment it drops.
-/

namespace Plumbing.Stream

/-- Byte segments read as one stream. -/
structure SegmentQueue where
  segments : List (List UInt8)
  offset : Nat
  len : Nat
  deriving DecidableEq, Repr, Inhabited

namespace SegmentQueue

/-- The empty queue. -/
def empty : SegmentQueue := ⟨[], 0, 0⟩

/-- The bytes not yet read, in order. -/
def toBytes (q : SegmentQueue) : List UInt8 := q.segments.flatten.drop q.offset

/-- Whether no bytes are left to read. -/
def isEmpty (q : SegmentQueue) : Bool := q.len == 0

/-- Appends a segment. -/
def push (q : SegmentQueue) (seg : List UInt8) : SegmentQueue :=
  { q with segments := q.segments ++ [seg], len := q.len + seg.length }

/-- Drops every segment. -/
def clear (_q : SegmentQueue) : SegmentQueue := empty

/-- The loop of `readInto`: copies up to `room` more bytes after `acc` (pieces newest first),
starting `offset` bytes into the front segment. -/
def takeFrom (segs : List (List UInt8)) (offset room : Nat) (acc : List (List UInt8)) :
    List (List UInt8) × List (List UInt8) × Nat :=
  match segs with
  | [] => (acc, [], 0)
  | front :: rest =>
    let avail := front.drop offset
    let n := min avail.length room
    if n < avail.length then ((avail.take n) :: acc, front :: rest, offset + n)
    else takeFrom rest 0 (room - n) (avail :: acc)

/-- Reads up to `k` bytes from the front. -/
def readInto (q : SegmentQueue) (k : Nat) : List UInt8 × SegmentQueue :=
  let (acc, segs, offset) := takeFrom q.segments q.offset k []
  let out := acc.reverse.flatten
  (out, ⟨segs, offset, q.len - out.length⟩)

/-- The loop of `readInto`, handing back what it drops: as `takeFrom`, and each segment copied to
its end is added to `done` (newest first) as it leaves the front. -/
def takeRelease (segs : List (List UInt8)) (offset room : Nat) (acc done : List (List UInt8)) :
    List (List UInt8) × List (List UInt8) × List (List UInt8) × Nat :=
  match segs with
  | [] => (acc, done, [], 0)
  | front :: rest =>
    let avail := front.drop offset
    let n := min avail.length room
    if n < avail.length then ((avail.take n) :: acc, done, front :: rest, offset + n)
    else takeRelease rest 0 (room - n) (avail :: acc) (front :: done)

/-- Reads up to `k` bytes from the front as `readInto` does, handing back each segment read to
its end: the bytes read, the segments handed back in order, and the queue left. -/
def readRelease (q : SegmentQueue) (k : Nat) : List UInt8 × List (List UInt8) × SegmentQueue :=
  let (acc, done, segs, offset) := takeRelease q.segments q.offset k [] []
  let out := acc.reverse.flatten
  (out, done.reverse, ⟨segs, offset, q.len - out.length⟩)

end SegmentQueue

end Plumbing.Stream
