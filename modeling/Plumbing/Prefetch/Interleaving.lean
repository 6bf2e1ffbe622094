import Plumbing.Prefetch.Reader

/-!
# Prefetching, one atomic step at a time

`Reader.read` takes the segments of its source as if the producer had queued them all already.
Here the producer is the thread it is: spawned by `start` or by the first read, it reads and
queues one segment per step, and the reader's reads take their steps in between, in any order.
A read is taken at the moment it returns, with the segments queued by then: while it needs a
segment the producer has not queued yet, it waits (`Reader.waits`).

A full queue makes the producer wait until the reader takes a segment. These steps leave the
wait out, a segment is always queued, so they allow every order the threads can really take
and more: what holds of every run (`World.run`) holds whatever the queue length.
-/

namespace Plumbing.Prefetch

open Plumbing.Stream

/-- A prefetching reader with its producer thread. -/
structure World where
  /-- The segments the producer has still to read and queue. -/
  unsent : List Fill
  /-- The reader: what it buffered, the segments queued and not taken, and whether the producer
  was started. -/
  reader : Reader

/-- One atomic step of one thread. -/
inductive Event
  /-- The producer is spawned, by `start` or at the beginning of the first read. -/
  | start
  /-- The producer reads its next segment and queues it. -/
  | produce
  /-- A read of `size` bytes returns. -/
  | read (size : Nat)
  deriving DecidableEq, Repr

/-- Whether a read of `k` bytes runs out of queued segments before it has `k` bytes, meeting no
failure: it then waits for the producer, unless the producer has nothing more to queue. -/
def Reader.waits (p : Reader) (k : Nat) : Bool :=
  match p.queue with
  | none => false
  | some q =>
    match Reader.takeSegments p.buffer k q with
    | (_, none, none) => true
    | _ => false

namespace World

/-- A reader of `source` whose producer has not started. -/
def new (segmentSize queueLen : Nat) (source : Source) : World :=
  ⟨Source.segments (Reader.segmentLen segmentSize) source,
    { Reader.new segmentSize queueLen source with queue := some [] }⟩

/-- One atomic step; `none` when it cannot be taken now. A read reports its answer. -/
def step (w : World) : Event → Option (Option (Except IoError (List UInt8)) × World)
  | .start =>
    if w.reader.started then none
    else some (none, { w with reader := { w.reader with started := true } })
  | .produce =>
    match w.unsent with
    | [] => none
    | s :: rest =>
      if w.reader.started then
        match w.reader.queue with
        | some q => some (none, ⟨rest, { w.reader with queue := some (q ++ [s]) }⟩)
        -- the reader let go of the queue: the segment is not received, and the producer stops
        | none => some (none, ⟨[], w.reader⟩)
      else none
  | .read k =>
    if w.reader.waits k && !w.unsent.isEmpty then none
    else some (some (w.reader.read k).1, { w with reader := (w.reader.read k).2 })

/-- Takes the steps in order, with what each reported; `none` when one cannot be taken. -/
def run (w : World) : List Event → Option (List (Option (Except IoError (List UInt8))) × World)
  | [] => some ([], w)
  | e :: es =>
    match w.step e with
    | none => none
    | some (o, w) =>
      match w.run es with
      | none => none
      | some (os, w) => some (o :: os, w)

end World

/-- The sizes of the reads among `evs`, in order. -/
def readSizes (evs : List Event) : List Nat :=
  evs.filterMap fun
    | .read k => some k
    | _ => none

end Plumbing.Prefetch
