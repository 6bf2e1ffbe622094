import Plumbing.Error
import Plumbing.Stream.Source
import Plumbing.Stream.SegmentQueue

/-!
# Prefetching readers

A prefetching `Reader` hands its source to a producer that reads it one full segment at a time
(`Source.segments`) and queues the segments ahead of the reader; the last segment carries how the
source ended. The producer starts with `start`, or with the first read.

A read of `k` bytes (`Reader.read`) takes segments into its buffer until it holds `k` bytes or
the queue is drained, then answers up to `k` buffered bytes. A segment carrying a source failure
answers that failure at once, even with bytes buffered; its own bytes are dropped and the queue
is let go, so the bytes buffered before it are answered by the reads after, and then no bytes.
Once the reader is closed, or aborted from elsewhere, every read answers no bytes.

The producer's progress is not observable: a segment it has not queued yet is one the reader
waits for. So the segments are computed from the source in full, and the reader takes them in
order.
-/

namespace Plumbing.Stream

/-- Reads the source in full segments of `n` bytes, for at most `fuel` segments; the segment
that reaches the end of the source carries how it ended. Pauses in the source are passed over. -/
def Source.segmentsFor (n : Nat) : Nat → Source → List Fill
  | 0, _ => []
  | fuel + 1, src =>
    let (f, src, _) := Source.readFull id n () src
    match f.ending with
    | some _ => [f]
    | none => f :: Source.segmentsFor n fuel src

/-- The segments of `n` bytes a producer reads from the source. A full read that does not end
the source consumes a byte of it, so `weight + 1` segments are enough. -/
def Source.segments (n : Nat) (src : Source) : List Fill :=
  Source.segmentsFor n (Source.weight src + 1) src

end Plumbing.Stream

namespace Plumbing.Prefetch

open Plumbing.Stream

/-- A prefetching reader. -/
structure Reader where
  segmentSize : Nat
  queueLen : Nat
  /-- The segments the producer queues and the reader has not taken; `none` once the queue was
  let go. -/
  queue : Option (List Fill)
  /-- Bytes taken from the queue and not yet read. -/
  buffer : SegmentQueue
  started : Bool
  closed : Bool
  deriving DecidableEq, Repr

namespace Reader

/-- The segment size in use: 0 counts as 1. -/
def segmentLen (segmentSize : Nat) : Nat := max segmentSize 1

/-- A reader of `source` in segments of `segmentSize` bytes, queueing `queueLen` of them. -/
def new (segmentSize queueLen : Nat) (source : Source) : Reader :=
  ⟨segmentSize, queueLen, some (Source.segments (segmentLen segmentSize) source), .empty,
    false, false⟩

/-- Starts the producer; fails once closed, or when already started. -/
def start (p : Reader) : Except Error Unit × Reader :=
  if p.closed then (.error (Error.closed .start), p)
  else if p.started then (.error ⟨.start, .alreadyStarted⟩, p)
  else (.ok (), { p with started := true })

/-- Closes the reader, dropping what it buffered. -/
def close (p : Reader) : Reader := { p with closed := true, queue := none, buffer := .empty }

/-- Aborts the reader from elsewhere: later reads answer no bytes. -/
def abort (p : Reader) : Reader := { p with closed := true }

/-- Takes segments into the buffer until it holds `k` bytes; answers the buffer, a source
failure met on the way (with the queue let go), and the segments left. -/
def takeSegments (buffer : SegmentQueue) (k : Nat) :
    List Fill → SegmentQueue × Option IoError × Option (List Fill)
  | [] => (buffer, none, if buffer.len < k then none else some [])
  | s :: rest =>
    if buffer.len < k then
      match s.ending with
      | some (.failed e) => (buffer, some e, none)
      | _ => takeSegments (buffer.push s.bytes) k rest
    else (buffer, none, some (s :: rest))

/-- Reads up to `k` bytes. -/
def read (p : Reader) (k : Nat) : Except IoError (List UInt8) × Reader :=
  if p.closed then (.ok [], p)
  else
    let (buffer, failure, queue) := match p.queue with
      | none => (p.buffer, none, none)
      | some segs => takeSegments p.buffer k segs
    let p := { p with started := true, buffer := buffer, queue := queue }
    match failure with
    | some e => (.error e, p)
    | none =>
      let (out, buffer) := buffer.readInto k
      (.ok out, { p with buffer := buffer })

/-- The bytes the reader can still deliver. -/
def available (p : Reader) : Nat :=
  p.buffer.len + ((p.queue.getD []).map fun s => s.bytes.length).foldr (· + ·) 0

end Reader

end Plumbing.Prefetch
