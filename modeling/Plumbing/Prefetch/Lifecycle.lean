import Plumbing.Prefetch.Interleaving

/-!
# A prefetching reader and its threads

The threads around a prefetching reader, each taking atomic steps, interleaved in any order
(`Scene.run`):

* the reader's owner calls `start`, `read` and `close`, one call at a time;
* any thread may abort the reader through its abort handle, also while a read waits;
* the producer thread, once spawned, loops: at its top it stops if the reader was closed or
  aborted, else reads one full segment from the source (`fetch`); then it queues the segment
  unless the reader was closed or aborted or let go of the queue, and stops after a segment that
  carries how the source ended (`send`).

The producer is spawned by `start`, or by a read on a reader not started yet. A read is up to
three steps: its call, which answers no bytes at once on a closed reader; then, on a reader not
started, its own start (`launch`), which checks the abort signal again and fails as `start` does
on a reader closed in between, or spawns the producer; and its return (`finish`), which takes the
segments queued by then. The return waits while the reader is open, the queued segments do not
satisfy the read, and the producer may still queue one.

A step is where its effect is seen by the other threads. A read woken at once by a segment and
by the abort signal picks one of them; the run then has its return before or after the abort,
as it picked. Left out: a full queue makes the producer wait for the reader (so the runs here
include every order the threads can take, and more, as in `World`), and a thread that cannot be
spawned.
-/

namespace Plumbing.Prefetch

open Plumbing.Stream

/-- Where the producer thread stands. -/
inductive Phase
  /-- Not spawned: the reader still holds the source. -/
  | unspawned
  /-- At the top of its loop. -/
  | top
  /-- Holding a segment it read, to be queued. -/
  | holding (seg : Fill)
  /-- Stopped: it reads and queues nothing more. -/
  | stopped
  deriving DecidableEq, Repr

/-- Whether the producer may still queue a segment. -/
def Phase.running : Phase → Bool
  | .top | .holding _ => true
  | _ => false

/-- Where the owner's read stands between its call and its return; each carries the read's size. -/
inductive Call
  /-- It found the reader open and not started, and starts it next. -/
  | starting (size : Nat)
  /-- It waits for segments. -/
  | waiting (size : Nat)
  deriving DecidableEq, Repr

/-- A prefetching reader with the threads around it. -/
structure Scene where
  reader : Reader
  /-- What the source has still to deliver, to the producer once it is spawned. -/
  unread : Source
  phase : Phase
  /-- The owner's read that was called and has not returned. -/
  pending : Option Call
  deriving DecidableEq, Repr

/-- One atomic step of one thread. -/
inductive Act
  /-- The owner calls `start`. -/
  | start
  /-- The owner calls a read of `size` bytes. -/
  | read (size : Nat)
  /-- The owner's read starts the reader it found not started. -/
  | launch
  /-- The owner's pending read returns. -/
  | finish
  /-- The owner calls `close`. -/
  | close
  /-- Some thread aborts the reader through its abort handle. -/
  | abort
  /-- The producer at the top of its loop. -/
  | fetch
  /-- The producer offers the segment it holds to the queue. -/
  | send
  deriving DecidableEq, Repr

/-- What a step answers, or does that the other threads can see. -/
inductive Report
  /-- Nothing: a read was called and waits, the reader was aborted, or the producer stopped. -/
  | quiet
  /-- What `start` or `close` returned. -/
  | returned (r : Except Error Unit)
  /-- What a read returned: bytes, the source's failure, or the failure of the start it made. -/
  | read (r : Except IoFailure (List UInt8))
  /-- The producer read a segment from the source. -/
  | fetched (seg : Fill)
  /-- The producer queued a segment. -/
  | queued (seg : Fill)
  deriving Repr

namespace Scene

/-- A reader of `source`, in segments of `segmentSize` bytes, queueing up to `queueLen` of them:
not started, with nothing queued. -/
def new (segmentSize queueLen : Nat) (source : Source) : Scene :=
  ⟨{ Reader.new segmentSize queueLen source with queue := some [] }, source, .unspawned, none⟩

/-- Starts the reader; on success the producer is spawned with the source. -/
def start (s : Scene) : Except Error Unit × Scene :=
  match s.reader.start with
  | (.ok (), r) => (.ok (), { s with reader := r, phase := .top })
  | (.error e, r) => (.error e, { s with reader := r })

/-- One atomic step; `none` when it cannot be taken now. -/
def step (s : Scene) : Act → Option (Report × Scene)
  | .start =>
    if s.pending.isSome then none
    else some (.returned s.start.1, s.start.2)
  | .read k =>
    if s.pending.isSome then none
    else if s.reader.closed then some (.read (.ok []), s)
    else
      let call := if s.reader.started then Call.waiting k else Call.starting k
      some (.quiet, { s with pending := some call })
  | .launch =>
    match s.pending with
    | some (.starting k) =>
      match s.start with
      | (.ok (), s) => some (.quiet, { s with pending := some (.waiting k) })
      | (.error e, s) => some (.read (.error (.error e)), { s with pending := none })
    | _ => none
  | .finish =>
    match s.pending with
    | some (.waiting k) =>
      if !s.reader.closed && s.reader.waits k && s.phase.running then none
      else
        let (r, reader) := s.reader.read k
        some (.read (r.mapError .plain), { s with reader := reader, pending := none })
    | _ => none
  | .close =>
    if s.pending.isSome then none
    else some (.returned (.ok ()), { s with reader := s.reader.close })
  | .abort => some (.quiet, { s with reader := s.reader.abort })
  | .fetch =>
    match s.phase with
    | .top =>
      if s.reader.closed then some (.quiet, { s with phase := .stopped })
      else
        let (seg, rest, _) :=
          Source.readFull id (Reader.segmentLen s.reader.segmentSize) () s.unread
        some (.fetched seg, { s with unread := rest, phase := .holding seg })
    | _ => none
  | .send =>
    match s.phase with
    | .holding seg =>
      match s.reader.closed, s.reader.queue with
      | false, some q =>
        let reader := { s.reader with queue := some (q ++ [seg]) }
        some (.queued seg,
          { s with reader := reader, phase := if seg.ending.isSome then .stopped else .top })
      -- closed, or the reader let go of the queue: the segment is not received
      | _, _ => some (.quiet, { s with phase := .stopped })
    | _ => none

/-- Takes the steps in order, with what each reported; `none` when one cannot be taken. -/
def run (s : Scene) : List Act → Option (List Report × Scene)
  | [] => some ([], s)
  | a :: as =>
    match s.step a with
    | none => none
    | some (r, s) =>
      match s.run as with
      | none => none
      | some (rs, s) => some (r :: rs, s)

end Scene

end Plumbing.Prefetch
