import Plumbing.Broadcast.Hub

/-!
# Broadcasts, one atomic step at a time

`Hub.broadcast` runs a broadcast in one go, its readers' threads run eagerly after each change.
Here a broadcast is the threads it really is: the broadcaster's owner, the thread inside
`broadcast`, one thread per reader that reads, closes or drops it, and whoever raises the abort
signal, taking their steps in any order.

A `World` is the broadcaster with its readers, the part of the source not read yet, and where
the broadcasting thread stands (`Phase`). `World.step` takes one atomic step of one thread (an
`Event`), and answers `none` when that step cannot be taken now. The broadcasting thread's
steps (`World.advance`) are those of `broadcast`: the abort check at the top of its loop, each
read of the source into the segment being filled, the offer of a segment to one registration,
and the letting go of one registration, its slot filled first. A read is taken at the moment it
returns: pulling from the queue into the buffer and answering depends only on what was queued
by then.

A full queue makes the broadcaster wait until its reader takes a segment. These steps leave the
wait out, an offer always goes through, so they allow every order the threads can really take
and more: what holds of every run (`World.run`) holds whatever the queue length.
-/

namespace Plumbing.Broadcast

open Plumbing.Stream

/-- Where the broadcasting thread stands. -/
inductive Phase
  /-- `broadcast` was not called yet. -/
  | idle
  /-- At the top of the loop, before the abort check. -/
  | top
  /-- Filling a segment; `acc` are the bytes read into it so far. -/
  | filling (acc : List UInt8)
  /-- Offering `seg` to the registration at position `i`; `ending` is how the full read that
  made it ended, if it did. -/
  | offering (seg : List UInt8) (ending : Option End) (i : Nat)
  /-- The loop ended with `result`; the registrations in `rest` are still to be let go. -/
  | releasing (result : Except Error Unit) (rest : List Nat)
  /-- `broadcast` returned `result`. -/
  | returned (result : Except Error Unit)
  /-- The broadcaster was dropped. -/
  | gone
  deriving Repr

/-- One atomic step of one thread. -/
inductive Event
  /-- The owner makes a reader. -/
  | newReader
  /-- The owner calls `broadcast`. -/
  | broadcast
  /-- The broadcasting thread takes its next step. -/
  | advance
  /-- A read of `size` bytes from reader `id` returns. -/
  | read (id size : Nat)
  | close (id : Nat)
  | drop (id : Nat)
  /-- The abort signal is raised, by the broadcaster or an abort handle. -/
  | abort
  /-- The owner drops the broadcaster. -/
  | dropBroadcaster
  deriving DecidableEq, Repr

/-- What a step reports to the thread that took it. -/
inductive Report
  | quiet
  /-- `newReader` made the reader with this id. -/
  | made (id : Nat)
  /-- A read returned. -/
  | read (r : Except Error (List UInt8))
  /-- `broadcast` returned. -/
  | returned (r : Except Error Unit)
  deriving Repr

/-- A broadcaster with its readers, its source, and its broadcasting thread. -/
structure World where
  hub : Hub
  source : Source
  phase : Phase

namespace World

/-- A broadcaster of `source` with no readers, `broadcast` not called yet. -/
def new (segmentSize queueLen : Nat) (source : Source) : World :=
  ⟨Hub.new segmentSize queueLen, source, .idle⟩

/-- Leaves the loop with `result`: takes the registrations, to be let go one at a time. -/
def stop (w : World) (result : Except Error Unit) : World :=
  { w with hub := { w.hub with registrations := [] }, phase := .releasing result w.hub.registrations }

/-- Goes on after a segment was offered to every registration, or after a full read with no
bytes, by how that read ended. -/
def afterSegment (w : World) : Option End → World
  | none => { w with phase := .top }
  | some .eof => w.stop (.ok ())
  | some (.failed e) => w.stop (.error (Error.io .broadcast e))

/-- Ends a full read that gave `acc`: offers them when there are any. -/
def endFill (w : World) (acc : List UInt8) (ending : Option End) : World :=
  if acc.isEmpty then w.afterSegment ending else { w with phase := .offering acc ending 0 }

/-- The broadcasting thread's next step; `none` outside `broadcast`. -/
def advance (w : World) : Option (Report × World) :=
  match w.phase with
  | .idle | .returned _ | .gone => none
  | .top =>
    if w.hub.aborted then some (.quiet, w.stop (.error (Error.aborted .broadcast)))
    else some (.quiet, { w with phase := .filling [] })
  | .filling acc =>
    match Source.read (w.hub.segmentLen - acc.length) w.source with
    | (.bytes b, src) =>
      if acc.length + b.length < w.hub.segmentLen then
        some (.quiet, { w with source := src, phase := .filling (acc ++ b) })
      else some (.quiet, { w with source := src }.endFill (acc ++ b) none)
    | (.done, src) => some (.quiet, { w with source := src }.endFill acc (some .eof))
    | (.interrupted, src) | (.paused, src) => some (.quiet, { w with source := src })
    | (.failed e, src) => some (.quiet, { w with source := src }.endFill acc (some (.failed e)))
  | .offering seg ending i =>
    if hi : i < w.hub.registrations.length then
      if w.hub.aborted then some (.quiet, w.stop (.error (Error.aborted .broadcast)))
      else
        let id := w.hub.registrations[i]
        match w.hub.reader? id with
        | none => none
        | some r =>
          -- a closed or dropped reader's registration goes, the front one taking its place
          if r.detached || r.dropped then
            some (.quiet, { w with hub :=
              { w.hub with registrations := swapRemoveFront w.hub.registrations i } })
          else some (.quiet, { w with hub := w.hub.enqueue id seg, phase := .offering seg ending (i + 1) })
    else some (.quiet, w.afterSegment ending)
  | .releasing result rest =>
    match rest with
    | [] => some (.returned result, { w with phase := .returned result })
    | id :: rest =>
      some (.quiet, { w with hub := w.hub.modify id (Reader.release (Hub.terminalOf result)),
                             phase := .releasing result rest })

/-- Whether the owner holds the broadcaster and is not inside `broadcast`. -/
def ownerFree (w : World) : Bool :=
  match w.phase with
  | .idle | .returned _ => true
  | _ => false

/-- One atomic step of one thread; `none` when it cannot be taken now. -/
def step (w : World) : Event → Option (Report × World)
  | .newReader =>
    if w.ownerFree then
      let (h, id) := w.hub.addReader none
      some (.made id, { w with hub := h })
    else none
  | .broadcast =>
    if w.ownerFree then
      if w.hub.finished then some (.returned (.error (Error.closed .broadcast)), w)
      else some (.quiet, { w with hub := { w.hub with finished := true }, phase := .top })
    else none
  | .advance => w.advance
  | .read i k =>
    if w.hub.isHeld i then
      match w.hub.read i k with
      | (.blocked, _) => none
      | (.done r, h) => some (.read r, { w with hub := h })
    else none
  | .close i => if w.hub.isHeld i then some (.quiet, { w with hub := w.hub.close i }) else none
  | .drop i => if w.hub.isHeld i then some (.quiet, { w with hub := w.hub.drop i }) else none
  | .abort => some (.quiet, { w with hub := { w.hub with aborted := true } })
  | .dropBroadcaster =>
    if w.ownerFree then
      some (.quiet, { w with hub := if w.hub.finished then w.hub else w.hub.releaseAll (some .closed),
                             phase := .gone })
    else none

/-- Takes the steps in order, with what each reported; `none` when one cannot be taken. -/
def run (w : World) : List Event → Option (List Report × World)
  | [] => some ([], w)
  | e :: es =>
    match w.step e with
    | none => none
    | some (o, w) =>
      match w.run es with
      | none => none
      | some (os, w) => some (o :: os, w)

end World

/-- The reads of reader `id` in a run's events and reports: the size of each and what it
returned, in order. -/
def readsOf (id : Nat) : List Event → List Report → List (Nat × Except Error (List UInt8))
  | .read i k :: es, .read r :: os =>
    if i = id then (k, r) :: readsOf id es os else readsOf id es os
  | _ :: es, _ :: os => readsOf id es os
  | _, _ => []

end Plumbing.Broadcast
