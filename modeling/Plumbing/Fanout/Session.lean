import Plumbing.Fanout.Writer

/-!
# Scripted fan-out writes

A script drives a fan-out `Writer` by a list of `Step`s, each answering an `Outcome`; the
script as a whole comes to a `Run`. Dropping the writer closes it unless it was closed, and
ignores the answer; a step after the drop refuses the whole script. The writer is dropped at
the end of the script if the script did not drop it. A sink that panics while an idle writer
closes it does so on the caller's side, which ends the whole script.
-/

namespace Plumbing.Fanout

/-- A step of a scripted fan-out. -/
inductive Step
  | write (data : List UInt8)
  /-- Writes all of `data` through the io interface: no call for empty data. -/
  | writeAll (data : List UInt8)
  | flush
  | addSink (plan : SinkPlan)
  | close
  | drop
  | sinkCount
  | isClosed
  | queueLen
  deriving DecidableEq, Repr

/-- What a step answers. -/
inductive Outcome
  | count (n : Nat)
  | unit
  | flag (b : Bool)
  | failed (e : Error)
  deriving DecidableEq, Repr

/-- How a scripted fan-out comes out. -/
inductive Run
  /-- Every step ran: their outcomes, and the sinks as they were left. -/
  | done (outcomes : List Outcome) (sinks : List Sink)
  /-- A step came after the writer was dropped: the script is refused as a whole. -/
  | refused (r : Refusal)
  /-- A sink panicked on the caller's side. -/
  | panicked
  deriving Repr

/-- Puts the outcome of an earlier step in front of a run's outcomes. -/
def Run.cons (o : Outcome) : Run → Run
  | .done os sinks => .done (o :: os) sinks
  | r => r

/-- A writer, or `none` once it was dropped. -/
abbrev Held := Option Writer

/-- Drops the writer, closing it unless it was closed. -/
def Writer.drop (w : Writer) : Option Writer :=
  if w.isClosed then some w else (w.close).map (·.2)

/-- Runs one step on a writer; `none` when a sink panicked on the caller's side. -/
def Writer.step (w : Writer) : Step → Option (Outcome × Held × Writer)
  | .write d =>
    match w.write d with
    | (.ok n, w) => some (.count n, some w, w)
    | (.error e, w) => some (.failed e, some w, w)
  | .writeAll d =>
    if d.isEmpty then some (.unit, some w, w)
    else
      match w.write d with
      | (.ok _, w) => some (.unit, some w, w)
      | (.error e, w) => some (.failed e, some w, w)
  | .flush => some (.unit, some w, w)
  | .addSink p => let w := w.addSink p; some (.unit, some w, w)
  | .close =>
    (w.close).map fun
      | (.ok (), w) => (.unit, some w, w)
      | (.error e, w) => (.failed e, some w, w)
  | .drop => (w.drop).map fun w => (.unit, none, w)
  | .sinkCount => some (.count w.sinkCount, some w, w)
  | .isClosed => some (.flag w.isClosed, some w, w)
  | .queueLen => some (.count w.queueLen, some w, w)

/-- Runs the steps in order on a writer the script holds, dropping it at the end unless a step
dropped it. -/
def runSteps (w : Writer) : List Step → Run
  | [] =>
    match w.drop with
    | some w => .done [] w.sinks.toList
    | none => .panicked
  | st :: rest =>
    match w.step st with
    | none => .panicked
    | some (o, some w, _) => (runSteps w rest).cons o
    | some (o, none, w) =>
      if rest.isEmpty then .done [o] w.sinks.toList else .refused .writerDropped

/-- Runs a scripted fan-out over sinks planned by `plans`, with queues of `queueLen` items. -/
def runScript (queueLen : Nat) (plans : List SinkPlan) (steps : List Step) : Run :=
  runSteps (plans.foldl Writer.addSink (Writer.new queueLen)) steps

end Plumbing.Fanout
