import Plumbing.Prefetch.Reader
import Plumbing.Stream.Drain

/-!
# Scripted prefetching reads

A script drives a `Reader` reader by a list of `Step`s, each answering an `Outcome`; at the
end it tells whether the producer was started.
-/

namespace Plumbing.Prefetch

open Plumbing.Stream

/-- A step of a scripted prefetching read. -/
inductive Step
  | start
  | read (size : Nat)
  /-- Reads `size` bytes at a time until no bytes or an error, at most `maxReads` times. -/
  | readToEnd (size : Nat) (maxReads : Option Nat)
  | close
  | abort
  | isStarted
  | isClosed
  | options
  deriving DecidableEq, Repr

/-- What a step answers. -/
inductive Outcome
  | unit
  | failed (e : Error)
  | bytes (r : Except IoError (List UInt8))
  | drained (d : Drain IoError)
  | flag (b : Bool)
  | options (segmentSize queueLen : Nat)
  deriving Repr

/-- Reads to the end, making at most `maxReads` reads (`Drain.maxReads` when not given). -/
def Reader.drain (p : Reader) (size : Nat) (maxReads : Option Nat) : Drain IoError × Reader :=
  match Drain.run (fun p => some (p.read size)) (maxReads.getD Drain.maxReads) p with
  | some r => r
  | none => (⟨[], [], .exhausted⟩, p)

/-- Runs one step. -/
def Reader.step (p : Reader) : Step → Outcome × Reader
  | .start =>
    match p.start with
    | (.ok (), p) => (.unit, p)
    | (.error e, p) => (.failed e, p)
  | .read k => let (r, p) := p.read k; (.bytes r, p)
  | .readToEnd k m => let (d, p) := p.drain k m; (.drained d, p)
  | .close => (.unit, p.close)
  | .abort => (.unit, p.abort)
  | .isStarted => (.flag p.started, p)
  | .isClosed => (.flag p.closed, p)
  | .options => (.options (segmentLen p.segmentSize) p.queueLen, p)

/-- Runs the steps in order. -/
def runSteps (p : Reader) : List Step → List Outcome × Reader
  | [] => ([], p)
  | st :: rest =>
    let (o, p) := p.step st
    let (os, p) := runSteps p rest
    (o :: os, p)

/-- Runs a scripted prefetching read of `source`; answers each step's outcome and whether the
producer was started. -/
def runScript (segmentSize queueLen : Nat) (source : Source) (steps : List Step) :
    List Outcome × Bool :=
  let (os, p) := runSteps (Reader.new segmentSize queueLen source) steps
  (os, p.started)

end Plumbing.Prefetch
