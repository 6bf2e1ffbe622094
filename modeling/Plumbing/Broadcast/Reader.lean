import Plumbing.Error
import Plumbing.Stream.SegmentQueue
import Plumbing.Stream.Drain

/-!
# Readers of a broadcast

A reader receives segments through a queue of its own and keeps what it received and has not
yet read in a buffer. Besides the queue it has a slot of two terminals, where the broadcaster
(or the reader itself, on closing) leaves how the stream ended. While the broadcaster holds the
reader's registration the queue may still receive; once it lets go, the queue is disconnected
and drains.

A read of `k` bytes (`Reader.read`):

* after the reader settled on closed or aborted, repeats that;
* once the broadcast is aborted, discards the buffer and answers aborted;
* on a closed reader, takes what is queued without waiting, and answers closed when nothing is
  left;
* otherwise takes segments until `k` bytes are buffered, waiting for more while the queue is
  connected; answers the buffered bytes if there are any; and else settles on the terminal in
  the slot, if one is there: the end of data answers no bytes, a failure answers that failure,
  every time.

A reader may be read by a thread of its own, which reads `readSize` bytes at a time until a
read answers no bytes or an error, with no bound on the number of reads. Threads are run
eagerly: after every change a thread reads as far as it can without waiting
(`Reader.runThread`).
-/

namespace Plumbing.Broadcast

open Plumbing.Stream

/-- How a reader's stream ended. -/
inductive Terminal
  | eof
  | failed (e : Error)
  | closed
  | aborted
  deriving DecidableEq, Repr

/-- How many terminals a reader's slot holds. -/
def slotLen : Nat := 2

/-- A thread that reads a reader to its end, with what it has read so far. -/
structure Thread where
  readSize : Nat
  /-- The bytes read, newest piece first. -/
  pieces : List (List UInt8)
  /-- The sizes of the reads that answered bytes, newest first. -/
  reads : List Nat
  /-- How the thread ended; `none` while it runs. -/
  ending : Option (Ending Error)
  /-- Whether the thread's result was collected. -/
  reported : Bool
  deriving Repr

/-- A reader of a broadcast. -/
structure Reader where
  /-- Segments queued and not yet received. -/
  queue : List (List UInt8)
  /-- Received bytes not yet read. -/
  buffer : SegmentQueue
  /-- Terminals left in the slot, oldest first. -/
  slot : List Terminal
  /-- Whether the reader was closed. -/
  detached : Bool
  /-- Whether the reader itself is gone, so that sending to it fails. -/
  dropped : Bool
  /-- The terminal the reader settled on. -/
  last : Option Terminal
  /-- Whether the broadcaster holds the reader's registration. -/
  registered : Bool
  /-- The thread reading the reader, if it has one. -/
  thread : Option Thread
  deriving Repr

/-- What a read comes to: an answer, or a wait for data that has not come. -/
inductive ReadStep
  | done (r : Except Error (List UInt8))
  | blocked
  deriving Repr

namespace Reader

/-- A fresh reader; a reader made after the broadcast finished is not registered, and finds
closed in its slot. -/
def new (finished : Bool) (thread : Option Thread) : Reader :=
  ⟨[], .empty, if finished then [.closed] else [], false, false, none, !finished, thread⟩

/-- Leaves a terminal in the slot, unless the slot is full. -/
def offer (r : Reader) (t : Terminal) : Reader :=
  if r.slot.length < slotLen then { r with slot := r.slot ++ [t] } else r

/-- Lets go of the reader's registration, leaving `t` in its slot first if there is one: its
queue then drains and disconnects. -/
def release (t : Option Terminal) (r : Reader) : Reader :=
  { (match t with | some t => r.offer t | none => r) with registered := false }

/-- The answer the reader's settled terminal gives. -/
def terminal (r : Reader) : Except Error (List UInt8) :=
  match r.last with
  | none | some .eof => .ok []
  | some (.failed e) => .error e
  | some .closed => .error (Error.closed .read)
  | some .aborted => .error (Error.aborted .read)

/-- Settles on aborted, discarding the buffer. -/
def abortRead (r : Reader) : ReadStep × Reader :=
  let r := { r with buffer := .empty, last := some .aborted }
  (.done r.terminal, r)

/-- Moves segments of `queue` into `buffer` until it holds `k` bytes or the queue is empty. -/
def pullFrom (buffer : SegmentQueue) (k : Nat) :
    List (List UInt8) → SegmentQueue × List (List UInt8)
  | [] => (buffer, [])
  | seg :: rest => if buffer.len < k then pullFrom (buffer.push seg) k rest else (buffer, seg :: rest)

/-- Moves queued segments into the buffer until it holds `k` bytes or the queue is empty. -/
def pull (r : Reader) (k : Nat) : Reader :=
  let (buffer, queue) := pullFrom r.buffer k r.queue
  { r with buffer := buffer, queue := queue }

/-- Answers up to `k` buffered bytes. -/
def copyOut (r : Reader) (k : Nat) : ReadStep × Reader :=
  let (out, buf) := r.buffer.readInto k
  (.done (.ok out), { r with buffer := buf })

/-- A read of up to `k` bytes, where `aborted` tells whether the broadcast was aborted. -/
def read (r : Reader) (aborted : Bool) (k : Nat) : ReadStep × Reader :=
  if r.last = some .closed || r.last = some .aborted then (.done r.terminal, r)
  else if aborted then r.abortRead
  else if r.detached then
    let r := r.pull k
    if r.buffer.isEmpty then
      let r := { r with last := some .closed }
      (.done r.terminal, r)
    else r.copyOut k
  else
    let r := r.pull k
    if r.buffer.len < k && r.registered then (.blocked, r)
    else if !r.buffer.isEmpty then r.copyOut k
    else
      match r.slot with
      | t :: rest =>
        let r := { r with slot := rest, last := some t }
        (.done r.terminal, r)
      | [] => (.done r.terminal, r)

/-- The bytes the reader can still deliver without waiting. -/
def available (r : Reader) : Nat :=
  r.buffer.len + (r.queue.map List.length).foldr (· + ·) 0

/-- Runs the reader's thread for at most `fuel` reads, until it would wait or ends. A thread
that ends lets go of its reader. -/
def runFor (aborted : Bool) : Nat → Reader → Reader
  | 0, r => r
  | fuel + 1, r =>
    match r.thread with
    | none => r
    | some th =>
      let finish (e : Ending Error) (r : Reader) : Reader :=
        { r with thread := some { th with ending := some e }, detached := true, dropped := true }
      if th.ending.isSome then r
      else
        match r.read aborted th.readSize with
        | (.blocked, r') => r'
        | (.done (.ok []), r') => finish .eof r'
        | (.done (.ok b), r') =>
          runFor aborted fuel
            { r' with thread := some { th with pieces := b :: th.pieces, reads := b.length :: th.reads } }
        | (.done (.error e), r') => finish (.failed e) r'

/-- Runs the reader's thread as far as it goes without waiting: each read that goes on
delivers at least one byte, so the bytes available bound the reads. -/
def runThread (aborted : Bool) (r : Reader) : Reader :=
  if r.thread.isSome then runFor aborted (r.available + 2) r else r

end Reader

end Plumbing.Broadcast
