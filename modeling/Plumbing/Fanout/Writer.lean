import Plumbing.Fanout.Sink
import Plumbing.Refusal

/-!
# The fan-out writer

A fan-out `Writer` replicates each write to many sinks. It starts idle, holding its sinks; the
first write starts a worker for each sink, which writes the items queued to it in order; `close`
closes every sink, and the writer stays closed.

* A write is queued to the workers in order. A worker whose sink failed has reported the failure
  and stopped, so queueing to it fails: the write answers the oldest failure reported and not yet
  received, or, when the worker stopped by panicking and reported nothing, that worker's panic.
  That failure is kept, and every later write answers it.
* A worker writes each item with a single call (`Sink.deliver`); an item the sink does not take
  whole is a failure. After a failure the worker closes its sink and stops; a worker that panics
  does not close its sink.
* Closing a started writer closes the sinks of the workers still running, then keeps the first
  of: the failure already kept, the failures reported in order, and the panics of the workers in
  order. Closing an idle writer closes the sinks in order on the caller's side, keeping the first
  failure.

The workers are modelled as running to completion after each call: the writer's answers do not
depend on when a worker runs, only on what it was given, so each write delivers its item at once
and a failing sink reports before the next call.
-/

namespace Plumbing.Fanout

/-- The phase of a fan-out writer. -/
inductive Phase
  | idle
  | running
  | closed
  deriving DecidableEq, Repr

/-- A worker writing one sink: the sink's index and whether it stopped. -/
structure Worker where
  sink : Nat
  /-- Whether the worker stopped after a failure. -/
  stopped : Bool
  /-- Whether the worker stopped by panicking. -/
  panicked : Bool
  deriving DecidableEq, Repr

/-- A fan-out writer with every sink it was given, in the order given. -/
structure Writer where
  /-- Every sink given to the writer, also those dropped because the writer was closed. -/
  sinks : Array Sink
  /-- The sinks held before the first write, by index. -/
  waiting : List Nat
  workers : Array Worker
  queueLen : Nat
  /-- Failures reported by the workers and not yet received, oldest first. -/
  reports : List Error
  /-- The failure kept, answered by every later write. -/
  failure : Option Error
  phase : Phase
  deriving DecidableEq, Repr

namespace Writer

/-- A writer with no sinks, whose workers queue `queueLen` items. -/
def new (queueLen : Nat) : Writer := ⟨#[], [], #[], queueLen, [], none, .idle⟩

/-- Keeps `e` unless a failure is kept already; answers the failure kept. -/
def fail (w : Writer) (e : Error) : Error × Writer :=
  match w.failure with
  | some f => (f, w)
  | none => (e, { w with failure := some e })

/-- Starts a worker for sink `i`. -/
def spawn (w : Writer) (i : Nat) : Writer :=
  { w with workers := w.workers.push ⟨i, false, false⟩ }

/-- Adds a sink: held while idle, given a worker while running, dropped once closed. -/
def addSink (w : Writer) (plan : SinkPlan) : Writer :=
  let i := w.sinks.size
  let w := { w with sinks := w.sinks.push (Sink.new plan) }
  match w.phase with
  | .idle => { w with waiting := w.waiting ++ [i] }
  | .running => w.spawn i
  | .closed => w

/-- The number of sinks written to. -/
def sinkCount (w : Writer) : Nat := w.waiting.length + w.workers.size

/-- Whether the writer was closed. -/
def isClosed (w : Writer) : Bool := w.phase == .closed

/-- Changes sink `i`. -/
def modifySink (w : Writer) (i : Nat) (f : Sink → Sink) : Writer :=
  { w with sinks := w.sinks.modify i f }

/-- Changes worker `j`. -/
def modifyWorker (w : Writer) (j : Nat) (f : Worker → Worker) : Writer :=
  { w with workers := w.workers.modify j f }

/-- Worker `j` closes its sink as it stops: a failure to close is reported, a panic stops the
worker as panicked. -/
def closeSinkOf (w : Writer) (j : Nat) : Writer :=
  match w.workers[j]? with
  | none => w
  | some wk =>
    match w.sinks[wk.sink]? with
    | none => w
    | some s =>
      let (d, s) := s.close
      let w := w.modifySink wk.sink fun _ => s
      match d with
      | .done => w
      | .failed e => { w with reports := w.reports ++ [e] }
      | .panicked => w.modifyWorker j fun wk => { wk with panicked := true }

/-- Worker `j` writes one item; a failure is reported, and the worker closes its sink and
stops. -/
def feed (w : Writer) (j : Nat) (item : List UInt8) : Writer :=
  match w.workers[j]? with
  | none => w
  | some wk =>
    match w.sinks[wk.sink]? with
    | none => w
    | some s =>
      let (d, s) := s.deliver item
      let w := w.modifySink wk.sink fun _ => s
      match d with
      | .done => w
      | .failed e =>
        let w := { w with reports := w.reports ++ [e] }
        (w.modifyWorker j fun wk => { wk with stopped := true }).closeSinkOf j
      | .panicked => w.modifyWorker j fun wk => { wk with stopped := true, panicked := true }

/-- Queues an item to the workers `js` in order, stopping at the first that stopped. -/
def queueTo (w : Writer) (item : List UInt8) : List Nat → Except Error Unit × Writer
  | [] => (.ok (), w)
  | j :: js =>
    match w.workers[j]? with
    | none => queueTo w item js
    | some wk =>
      if wk.stopped then
        let (e, w) := match w.reports with
          | e :: rest => (e, { w with reports := rest })
          | [] => (Error.workerPanicked .write j, w)
        let (e, w) := w.fail e
        (.error e, w)
      else queueTo (w.feed j item) item js

/-- Starts a worker for every sink held. -/
def start (w : Writer) : Writer :=
  let w := w.waiting.foldl spawn { w with waiting := [] }
  { w with phase := .running }

/-- Writes `data` to every sink; answers its length. -/
def write (w : Writer) (data : List UInt8) : Except Error Nat × Writer :=
  match w.phase with
  | .closed => (.error (Error.closed .write), w)
  | phase =>
    let w := if phase = .idle then w.start else w
    match w.failure with
    | some e => (.error e, w)
    | none =>
      match w.queueTo data (List.range w.workers.size) with
      | (.ok (), w) => (.ok data.length, w)
      | (.error e, w) => (.error e, w)

/-- Closes the sinks held by an idle writer in order, keeping the first failure; answers
`none` when a sink panicked on the caller's side. -/
def closeWaiting (w : Writer) : List Nat → Option Writer
  | [] => some w
  | i :: rest =>
    match w.sinks[i]? with
    | none => closeWaiting w rest
    | some s =>
      let (d, s) := s.close
      let w := w.modifySink i fun _ => s
      match d with
      | .done => closeWaiting w rest
      | .failed e => closeWaiting (w.fail e).2 rest
      | .panicked => none

/-- Stops the workers: those still running close their sinks; then the failures reported and
the panics are kept in order. -/
def stopWorkers (w : Writer) : Writer :=
  let w := (List.range w.workers.size).foldl (fun w j =>
    match w.workers[j]? with
    | some wk => if wk.stopped then w else w.closeSinkOf j
    | none => w) w
  let w := w.reports.foldl (fun w e => (w.fail e).2) { w with reports := [] }
  let w := (List.range w.workers.size).foldl (fun w j =>
    match w.workers[j]? with
    | some wk => if wk.panicked then (w.fail (Error.workerPanicked .close j)).2 else w
    | none => w) w
  { w with workers := #[] }

/-- Closes the writer, answering the failure kept, if any; answers `none` when a sink panicked
on the caller's side. -/
def close (w : Writer) : Option (Except Error Unit × Writer) :=
  let answer (w : Writer) : Except Error Unit × Writer :=
    match w.failure with
    | some e => (.error e, w)
    | none => (.ok (), w)
  match w.phase with
  | .closed => some (.error (Error.closed .close), w)
  | .idle =>
    (w.closeWaiting w.waiting).map fun w => answer { w with waiting := [], phase := .closed }
  | .running => some (answer { w.stopWorkers with phase := .closed })

end Writer

end Plumbing.Fanout
