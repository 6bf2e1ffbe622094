import Plumbing.Fanout.Interleaving

/-!
# Fan-out writes, one send at a time

`World.step` takes a write's sends as one step. A write really sends its item to the workers one
at a time, and each send is a select that also listens to the error channel: while a failure is
reported and not yet received, the select may receive it instead of sending, and the write then
returns it. Between two sends the workers take steps of their own.

A `Scene` is the writer's threads together with the write the caller is in, if any, and
`Scene.step` takes one atomic step (an `Act`):

* `write` is the call: a closed writer, or one that kept a failure, answers at once; otherwise the
  writer starts if it was idle and the write begins, having sent to no worker yet;
* `send` sends the item to the next worker as `World.queueTo` does for that one worker, and after
  the last worker the write answers the item's length;
* `take` is the select receiving the oldest failure reported instead of sending;
* the caller's other calls and the workers' steps are those of `World.step`, and a call waits
  while a write is in progress.

The writer keeps a sender of the error channel, so the channel never disconnects and the select
receives only failures. A send to a full queue waits until the worker takes an item; here it goes
through at once, so the steps allow every order the threads can take, whatever the queue length.
-/

namespace Plumbing.Fanout

/-- The writer's threads, and the write the caller is in. -/
structure Scene where
  world : World
  /-- The item of the write in progress, and the worker it is sent to next. -/
  sending : Option (List UInt8 × Nat)
  deriving DecidableEq, Repr

/-- One atomic step of one thread. -/
inductive Act
  /-- The caller adds a sink. -/
  | addSink (plan : SinkPlan)
  /-- The caller calls `write` with `data`. -/
  | write (data : List UInt8)
  /-- The write in progress sends to its next worker, or returns after the last one. -/
  | send
  /-- The write in progress receives a reported failure instead of sending, and returns. -/
  | take
  /-- The caller calls `close`. -/
  | close
  /-- `close` returns, every worker having ended. -/
  | join
  /-- Worker `j` takes its next step. -/
  | work (j : Nat)
  deriving DecidableEq, Repr

namespace Scene

/-- A writer with no sinks, and no write in progress. -/
def new : Scene := ⟨World.new, none⟩

/-- The call of `write`: a closed writer, or one that kept a failure, answers at once; otherwise
the writer starts if it was idle, and the write begins. -/
def begin (w : World) (data : List UInt8) : Option Outcome × Scene :=
  match w.phase with
  | .closed => (some (.failed (Error.closed .write)), ⟨w, none⟩)
  | phase =>
    let w := if phase = .idle then w.start else w
    match w.failure with
    | some e => (some (.failed e), ⟨w, none⟩)
    | none => (none, ⟨w, some (data, 0)⟩)

/-- Sends `data` to worker `k`, the write's next one; after the last worker the write answers the
length of `data`. A send to a worker that let go of its queue ends the write as `World.queueTo`
does. -/
def sendTo (w : World) (data : List UInt8) (k : Nat) : Option Outcome × Scene :=
  if k < w.threads.size then
    match w.queueTo data [k] with
    | (.ok (), w) => (none, ⟨w, some (data, k + 1)⟩)
    | (.error e, w) => (some (.failed e), ⟨w, none⟩)
  else (some (.count data.length), ⟨w, none⟩)

/-- The select receives the oldest failure reported, and the write returns the failure kept. -/
def receive (w : World) : Option (Option Outcome × Scene) :=
  match w.reports with
  | [] => none
  | e :: rest =>
    let (e, w) := { w with reports := rest }.fail e
    some (some (.failed e), ⟨w, none⟩)

/-- A call of the caller's other than `write`, taken as `World.step` takes it; it waits while a
write is in progress. -/
def call (sc : Scene) (e : Event) : Option (Option Outcome × Scene) :=
  if sc.sending.isSome then none else (sc.world.step e).map fun (o, w) => (o, ⟨w, none⟩)

/-- One atomic step; `none` when it cannot be taken now. A call that returns reports its
outcome. -/
def step (sc : Scene) : Act → Option (Option Outcome × Scene)
  | .addSink p => sc.call (.addSink p)
  | .write d => if sc.sending.isSome || sc.world.joining then none else some (begin sc.world d)
  | .send => sc.sending.map fun (d, k) => sendTo sc.world d k
  | .take =>
    match sc.sending with
    | some (_, k) => if k < sc.world.threads.size then receive sc.world else none
    | none => none
  | .close => sc.call .close
  | .join => sc.call .join
  | .work j => (sc.world.step (.work j)).map fun (o, w) => (o, ⟨w, sc.sending⟩)

/-- Takes the steps in order, with what each reported; `none` when one cannot be taken. -/
def run (sc : Scene) : List Act → Option (List (Option Outcome) × Scene)
  | [] => some ([], sc)
  | a :: as =>
    match sc.step a with
    | none => none
    | some (o, sc) =>
      match sc.run as with
      | none => none
      | some (os, sc) => some (o :: os, sc)

end Scene

end Plumbing.Fanout
