import Plumbing.Fanout.Session

/-!
# Fan-out writes, one atomic step at a time

`Writer.write` delivers each item at once, as if every worker ran to completion after each call.
Here each sink has the worker thread it really has: a write queues its item to every worker, and
each worker takes the items of its queue and writes them to its sink in steps of its own, in any
order with the writer's calls and with the other workers' steps.

A `World` is the writer with its threads. `World.step` takes one atomic step of one thread (an
`Event`) and answers `none` when that step cannot be taken now; a call that returns reports its
`Outcome`.

* A worker writes the items of its queue in order (`Sink.deliver`). Once the writer let go of
  the queue and the queue is empty, or after a failure, the worker lets go of the queue and then
  closes its sink (`Sink.close`); a panic ends it at once.
* A write queues its item to the workers in order, and fails at the first that let go of its
  queue, as `Writer.write` does.
* `close` lets go of every queue, and returns when every worker has ended (`Event.join`), with
  the failures kept as `Writer.close` keeps them. An idle writer closes its sinks on the
  caller's side. Dropping a writer that was not closed closes it by the same steps.

A write's sends are taken as one step, and a send to a full queue, which waits until its worker
takes an item, is taken as going through at once. A failure reported while a send waits can
end the write in the threads; these steps do not show that. Where no sink fails nothing is
reported, a send touches only its own worker's queue, and the steps allow every order the threads
can take, whatever the queue length.
-/

namespace Plumbing.Fanout

/-- Where a worker thread stands. -/
inductive Stage
  /-- Writing the items of its queue in order; it waits while the queue is empty and held. -/
  | draining
  /-- A write failed and was reported; the worker still holds its queue. -/
  | failed
  /-- The worker let go of its queue, and closes its sink next. -/
  | closing
  /-- The worker closed its sink and ended. -/
  | ended
  /-- A write panicked; the worker still holds its queue while it unwinds. -/
  | unwinding
  /-- The worker panicked and let go of its queue. -/
  | panicked
  deriving DecidableEq, Repr

/-- Whether a worker at this stage still holds the receiving end of its queue, so that a send to
it goes through. -/
def Stage.holds : Stage → Bool
  | .draining | .failed | .unwinding => true
  | _ => false

/-- Whether a worker at this stage has ended. -/
def Stage.over : Stage → Bool
  | .ended | .panicked => true
  | _ => false

/-- A worker thread: the sink it writes, and the items queued to it and not yet taken. -/
structure Thread where
  sink : Nat
  queue : List (List UInt8)
  stage : Stage
  deriving DecidableEq, Repr

/-- A fan-out writer with its worker threads. -/
structure World where
  /-- Every sink given to the writer, also those dropped because the writer was closed. -/
  sinks : Array Sink
  /-- The sinks held before the first write, by index. -/
  waiting : List Nat
  threads : Array Thread
  /-- Failures the workers sent on the error channel and not yet received, oldest first. -/
  reports : List Error
  /-- The failure kept, answered by every later write. -/
  failure : Option Error
  phase : Phase
  /-- Whether a `close` waits for the workers to end. -/
  joining : Bool
  deriving DecidableEq, Repr

/-- One atomic step of one thread. -/
inductive Event
  /-- The caller adds a sink. -/
  | addSink (plan : SinkPlan)
  /-- The caller writes `data`, and the write returns. -/
  | write (data : List UInt8)
  /-- The caller calls `close`, which lets go of every queue. -/
  | close
  /-- `close` returns, every worker having ended. -/
  | join
  /-- Worker `j` takes its next step. -/
  | work (j : Nat)
  deriving DecidableEq, Repr

namespace World

/-- A writer with no sinks. -/
def new : World := ⟨#[], [], #[], [], none, .idle, false⟩

/-- Keeps `e` unless a failure is kept already; answers the failure kept. -/
def fail (w : World) (e : Error) : Error × World :=
  match w.failure with
  | some f => (f, w)
  | none => (e, { w with failure := some e })

/-- Changes sink `i`. -/
def modifySink (w : World) (i : Nat) (f : Sink → Sink) : World :=
  { w with sinks := w.sinks.modify i f }

/-- Changes thread `j`. -/
def modifyThread (w : World) (j : Nat) (f : Thread → Thread) : World :=
  { w with threads := w.threads.modify j f }

/-- Starts a worker for sink `i`, with an empty queue. -/
def spawn (w : World) (i : Nat) : World :=
  { w with threads := w.threads.push ⟨i, [], .draining⟩ }

/-- Adds a sink: held while idle, given a worker while running, dropped once closed. -/
def addSink (w : World) (plan : SinkPlan) : World :=
  let i := w.sinks.size
  let w := { w with sinks := w.sinks.push (Sink.new plan) }
  match w.phase with
  | .idle => { w with waiting := w.waiting ++ [i] }
  | .running => w.spawn i
  | .closed => w

/-- Starts a worker for every sink held. -/
def start (w : World) : World :=
  let w := w.waiting.foldl spawn { w with waiting := [] }
  { w with phase := .running }

/-- Queues `item` to the workers `js` in order, stopping at the first that let go of its queue:
the write answers the oldest failure reported, or that worker's panic. -/
def queueTo (w : World) (item : List UInt8) : List Nat → Except Error Unit × World
  | [] => (.ok (), w)
  | j :: js =>
    match w.threads[j]? with
    | none => queueTo w item js
    | some t =>
      if t.stage.holds then
        queueTo (w.modifyThread j fun t => { t with queue := t.queue ++ [item] }) item js
      else
        let (e, w) := match w.reports with
          | e :: rest => (e, { w with reports := rest })
          | [] => (Error.workerPanicked .write j, w)
        let (e, w) := w.fail e
        (.error e, w)

/-- Writes `data` to every sink; answers its length. -/
def write (w : World) (data : List UInt8) : Except Error Nat × World :=
  match w.phase with
  | .closed => (.error (Error.closed .write), w)
  | phase =>
    let w := if phase = .idle then w.start else w
    match w.failure with
    | some e => (.error e, w)
    | none =>
      match w.queueTo data (List.range w.threads.size) with
      | (.ok (), w) => (.ok data.length, w)
      | (.error e, w) => (.error e, w)

/-- Closes the sinks held by an idle writer in order on the caller's side, keeping the first
failure; answers `none` when a sink panicked. -/
def closeWaiting (w : World) : List Nat → Option World
  | [] => some w
  | i :: rest =>
    match w.sinks[i]? with
    | none => closeWaiting w rest
    | some s =>
      let (d, s) := s.close
      let w := w.modifySink i fun _ => s
      match d with
      | .done => closeWaiting w rest
      | .failed e => closeWaiting (w.fail e).2 rest
      | .panicked => none

/-- The caller's `close`: an idle writer closes its sinks, a running one lets go of every queue;
the answer waits for `join`. A closed writer answers at once. -/
def close (w : World) : Option (Option Outcome × World) :=
  match w.phase with
  | .closed => some (some (.failed (Error.closed .close)), w)
  | .idle =>
    (w.closeWaiting w.waiting).map fun w =>
      (none, { w with waiting := [], phase := .closed, joining := true })
  | .running => some (none, { w with phase := .closed, joining := true })

/-- `close` returns once every worker has ended: it keeps the failures reported in order, then
the panics of the workers in order, and answers the failure kept. -/
def join (w : World) : Option (Outcome × World) :=
  if w.joining && w.threads.all (·.stage.over) then
    let w := w.reports.foldl (fun w e => (w.fail e).2) { w with reports := [] }
    let w := (List.range w.threads.size).foldl (fun w j =>
      match w.threads[j]? with
      | some t => if t.stage = .panicked then (w.fail (Error.workerPanicked .close j)).2 else w
      | none => w) w
    let w := { w with joining := false }
    match w.failure with
    | some e => some (.failed e, w)
    | none => some (.unit, w)
  else none

/-- Worker `j` takes its next step; `none` when it waits or has ended. -/
def work (w : World) (j : Nat) : Option World :=
  match w.threads[j]? with
  | none => none
  | some t =>
    match t.stage, t.queue with
    | .draining, item :: rest =>
      match w.sinks[t.sink]? with
      | none => none
      | some s =>
        let (d, s) := s.deliver item
        let w := w.modifySink t.sink fun _ => s
        match d with
        | .done => some (w.modifyThread j fun t => { t with queue := rest })
        | .failed e =>
          some ({ w with reports := w.reports ++ [e] }.modifyThread j fun t =>
            { t with queue := rest, stage := .failed })
        | .panicked => some (w.modifyThread j fun t => { t with queue := rest, stage := .unwinding })
    -- the queue's end: the writer let go of it and it is empty
    | .draining, [] =>
      if w.phase = .running then none
      else some (w.modifyThread j fun t => { t with stage := .closing })
    | .failed, _ => some (w.modifyThread j fun t => { t with queue := [], stage := .closing })
    | .unwinding, _ => some (w.modifyThread j fun t => { t with queue := [], stage := .panicked })
    | .closing, _ =>
      match w.sinks[t.sink]? with
      | none => none
      | some s =>
        let (d, s) := s.close
        let w := w.modifySink t.sink fun _ => s
        match d with
        | .done => some (w.modifyThread j fun t => { t with stage := .ended })
        | .failed e =>
          some ({ w with reports := w.reports ++ [e] }.modifyThread j fun t =>
            { t with stage := .ended })
        | .panicked => some (w.modifyThread j fun t => { t with stage := .panicked })
    | .ended, _ | .panicked, _ => none

/-- One atomic step; `none` when it cannot be taken now, or when a sink panicked on the
caller's side. A call that returns reports its outcome. -/
def step (w : World) : Event → Option (Option Outcome × World)
  | .addSink p => if w.joining then none else some (none, w.addSink p)
  | .write d =>
    if w.joining then none
    else
      match w.write d with
      | (.ok n, w) => some (some (.count n), w)
      | (.error e, w) => some (some (.failed e), w)
  | .close => if w.joining then none else w.close
  | .join => (w.join).map fun (o, w) => (some o, w)
  | .work j => (w.work j).map fun w => (none, w)

/-- Takes the steps in order, with what each reported; `none` when one cannot be taken. -/
def run (w : World) : List Event → Option (List (Option Outcome) × World)
  | [] => some ([], w)
  | e :: es =>
    match w.step e with
    | none => none
    | some (o, w) =>
      match w.run es with
      | none => none
      | some (os, w) => some (o :: os, w)

end World

end Plumbing.Fanout
