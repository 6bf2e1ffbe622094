import Plumbing.Broadcast.Hub
import Plumbing.Stream.Drain

/-!
# Scripted broadcasts

A session drives a `Hub` by a list of `Step`s: making readers (some read by threads of their
own), reading and closing them, aborting, broadcasting with actions at the source's pauses,
and dropping the broadcaster. Each step answers an `Outcome`.

Threads are collected (`Hub.join`) when the broadcast finishes, when the broadcaster is aborted
before its broadcast finished, when it is dropped, and at the end of the session, which drops
the broadcaster if the script did not.
A call that would wait forever is refused: a read of a registered reader with nothing queued
before the broadcast, and a broadcast that would fill the queue of a reader nobody reads.
-/

namespace Plumbing.Broadcast

open Plumbing.Stream

/-- What a thread read before it ended. -/
structure ThreadReport where
  reader : Nat
  data : List UInt8
  reads : List Nat
  ending : Ending Error
  deriving Repr

/-- A step of a scripted broadcast. -/
inductive Step
  /-- Makes a reader; with a read size, a thread reads it. -/
  | newReader (readSize : Option Nat)
  | read (id size : Nat)
  /-- Reads `size` bytes at a time until no bytes or an error, at most `maxReads` times. -/
  | readToEnd (id size : Nat) (maxReads : Option Nat)
  | closeReader (id : Nat)
  | dropReader (id : Nat)
  | isClosed (id : Nat)
  | readerCount
  | options
  | abort
  /-- Broadcasts, with an action list for each pause of the source. -/
  | broadcast (pauses : List (List Action))
  /-- Drops the broadcaster if it is still there, and collects the threads. -/
  | dropBroadcaster
  deriving Repr

/-- What a step answers. -/
inductive Outcome
  | made (id : Nat)
  | bytes (r : Except Error (List UInt8))
  | drained (d : Drain Error)
  | unit
  | flag (b : Bool)
  | count (n : Nat)
  | options (segmentSize queueLen : Nat)
  | aborted (was now : Bool) (threads : List ThreadReport)
  | broadcast (r : Except Error Unit) (pauses : List (List ActionResult)) (threads : List ThreadReport)
  | dropped (threads : List ThreadReport)
  | refused (r : Refusal)
  deriving Repr

namespace Hub

/-- Collects the threads that ended and were not collected yet, in the order of their readers. -/
def join (h : Hub) : List ThreadReport × Hub :=
  let (reports, readers) := (List.range h.readers.size).foldl (fun (acc : List ThreadReport × Array Reader) i =>
    match acc.2[i]? with
    | some r =>
      match r.thread with
      | some th =>
        match th.ending with
        | some e =>
          if th.reported then acc
          else (⟨i, th.pieces.reverse.flatten, th.reads.reverse, e⟩ :: acc.1,
                acc.2.modify i fun r => { r with thread := some { th with reported := true } })
        | none => acc
      | none => acc
    | none => acc) ([], h.readers)
  (reports.reverse, { h with readers := readers })

/-- Reads reader `i` to its end, `size` bytes at a time, making at most `maxReads` reads
(`Drain.maxReads` when not given). -/
def drain (h : Hub) (i size : Nat) (maxReads : Option Nat) : Option (Drain Error × Hub) :=
  Drain.run (fun h => match h.read i size with
    | (.blocked, _) => none
    | (.done r, h) => some (r, h)) (maxReads.getD Drain.maxReads) h

end Hub

/-- A scripted broadcast: the hub, the source not yet read, and whether the broadcaster is
still there. -/
structure Session where
  hub : Hub
  source : Source
  alive : Bool

namespace Session

/-- Runs one step. -/
def apply (s : Session) : Step → Outcome × Session
  | .newReader rs =>
    if !s.alive then (.refused .broadcasterDropped, s)
    else
      let (h, id) := s.hub.newReader rs
      (.made id, { s with hub := h })
  | .read i k =>
    if !s.hub.isHeld i then (.refused .noSuchReader, s)
    else
      match s.hub.read i k with
      | (.blocked, _) => (.refused .readWouldBlock, s)
      | (.done r, h) => (.bytes r, { s with hub := h })
  | .readToEnd i k m =>
    if !s.hub.isHeld i then (.refused .noSuchReader, s)
    else
      match s.hub.drain i k m with
      | none => (.refused .readWouldBlock, s)
      | some (d, h) => (.drained d, { s with hub := h })
  | .closeReader i =>
    if s.hub.isHeld i then (.unit, { s with hub := s.hub.close i }) else (.refused .noSuchReader, s)
  | .dropReader i =>
    if s.hub.isHeld i then (.unit, { s with hub := s.hub.drop i }) else (.refused .noSuchReader, s)
  | .isClosed i =>
    match s.hub.reader? i with
    | some r => if s.hub.isHeld i then (.flag r.detached, s) else (.refused .noSuchReader, s)
    | none => (.refused .noSuchReader, s)
  | .readerCount =>
    if !s.alive then (.refused .broadcasterDropped, s) else (.count s.hub.registrations.length, s)
  | .options =>
    if !s.alive then (.refused .broadcasterDropped, s) else (.options s.hub.segmentLen s.hub.queueLen, s)
  | .abort =>
    if !s.alive then (.refused .broadcasterDropped, s)
    else
      let was := s.hub.aborted
      let h := s.hub.abort
      let (ts, h) := if h.finished then ([], h) else h.join
      (.aborted was true ts, { s with hub := h })
  | .broadcast lists =>
    if !s.alive then (.refused .broadcasterDropped, s)
    else
      match s.hub.broadcast s.source lists with
      | .error _ => (.refused .queueWouldFill, s)
      | .ok (r, pauses, h) =>
        let (ts, h) := h.join
        (.broadcast r pauses ts, { s with hub := h, source := [] })
  | .dropBroadcaster =>
    let h := if s.alive then s.hub.dropBroadcaster else s.hub
    let (ts, h) := h.join
    (.dropped ts, { s with hub := h, alive := false })

/-- Runs the steps in order. -/
def runSteps (s : Session) : List Step → List Outcome × Session
  | [] => ([], s)
  | st :: rest =>
    let (o, s) := s.apply st
    let (os, s) := runSteps s rest
    (o :: os, s)

end Session

/-- Runs a scripted broadcast of `source` in segments of `segmentSize` bytes through queues
of `queueLen` segments; answers each step's outcome and the threads collected at the end. -/
def runScript (segmentSize queueLen : Nat) (source : Source) (steps : List Step) :
    List Outcome × List ThreadReport :=
  let (os, s) := Session.runSteps ⟨Hub.new segmentSize queueLen, source, true⟩ steps
  let h := if s.alive then s.hub.dropBroadcaster else s.hub
  (os, h.join.1)

end Plumbing.Broadcast
