import Plumbing.Broadcast.Reader
import Plumbing.Stream.Source
import Plumbing.Refusal

/-!
# The broadcaster

A `Hub` is a broadcaster with its readers. Readers register when they are made, in a deque.
`broadcast` reads the source in segments of `segmentSize` bytes (0 counts as 1) and offers each
non-empty segment to every registration in turn (`distribute`): a closed or dropped reader's
registration is removed, swapping the front registration into its place; every other reader
gets the segment in its queue. At the end each remaining reader's slot receives the end of data
or the source's failure (nothing after an abort), and all registrations are let go, so the
queues drain and disconnect.

An abort stops the broadcast at the next check: before each segment is read, and before each
offer. Pauses in the source hand control to a list of `Action`s on the readers. Dropping a
broadcaster that never broadcast leaves closed in every registered reader's slot.

Sending to a reader whose queue is full would wait for a read that, with nobody reading, never
comes: `distribute` then stops with `Stop.blocked`.
-/

namespace Plumbing.Broadcast

open Plumbing.Stream

/-- A broadcaster and its readers, by id. -/
structure Hub where
  readers : Array Reader
  /-- The ids of registered readers, in deque order. -/
  registrations : List Nat
  segmentSize : Nat
  queueLen : Nat
  finished : Bool
  aborted : Bool
  deriving Repr

/-- An action taken on the readers while the broadcast is paused. -/
inductive Action
  | closeReader (id : Nat)
  | dropReader (id : Nat)
  | isClosed (id : Nat)
  | abort
  /-- An action the script names that is none of the above. -/
  | unknown
  deriving DecidableEq, Repr

/-- What an action answers. -/
inductive ActionResult
  | unit
  | flag (b : Bool)
  | refused (r : Refusal)
  deriving DecidableEq, Repr

/-- Why a distribution stopped. -/
inductive Stop
  | aborted
  | blocked
  deriving DecidableEq, Repr

/-- Removes the element at `i`, moving the front element into its place. -/
def swapRemoveFront (l : List Nat) (i : Nat) : List Nat :=
  match l with
  | [] => []
  | f :: rest => if i = 0 then rest else rest.set (i - 1) f

theorem length_swapRemoveFront (l : List Nat) (i : Nat) (h : i < l.length) :
    (swapRemoveFront l i).length + 1 = l.length := by
  cases l with
  | nil => simp at h
  | cons f rest => by_cases hi : i = 0 <;> simp [swapRemoveFront, hi]

namespace Hub

/-- A broadcaster with no readers. -/
def new (segmentSize queueLen : Nat) : Hub := ⟨#[], [], segmentSize, queueLen, false, false⟩

/-- The segment size in use: 0 counts as 1. -/
def segmentLen (h : Hub) : Nat := max h.segmentSize 1

/-- The reader with id `i`, if there is one. -/
def reader? (h : Hub) (i : Nat) : Option Reader := h.readers[i]?

/-- Changes the reader with id `i`. -/
def modify (h : Hub) (i : Nat) (f : Reader → Reader) : Hub :=
  { h with readers := h.readers.modify i f }

/-- Runs every reader's thread as far as it goes. -/
def settle (h : Hub) : Hub :=
  { h with readers := h.readers.map (Reader.runThread h.aborted) }

/-- Adds a reader, read by the thread `th` if there is one, registering it unless the
broadcast finished; answers its id. -/
def addReader (h : Hub) (th : Option Thread) : Hub × Nat :=
  let id := h.readers.size
  ({ h with readers := h.readers.push (Reader.new h.finished th),
            registrations := if h.finished then h.registrations else h.registrations ++ [id] }, id)

/-- Makes a reader, read by a thread of `readSize` bytes when given one; answers its id. -/
def newReader (h : Hub) (readSize : Option Nat) : Hub × Nat :=
  let (h, id) := h.addReader (readSize.map fun n => (⟨max n 1, [], [], none, false⟩ : Thread))
  (h.settle, id)

/-- Whether `i` is a reader held by the caller: made, not dropped, and without a thread. -/
def isHeld (h : Hub) (i : Nat) : Bool :=
  match h.reader? i with
  | some r => !r.dropped && r.thread.isNone
  | none => false

/-- Closes reader `i`: raises its detach signal and leaves closed in its slot. -/
def close (h : Hub) (i : Nat) : Hub :=
  h.modify i fun r => if r.detached then r else { r.offer .closed with detached := true }

/-- Drops reader `i`. -/
def drop (h : Hub) (i : Nat) : Hub :=
  h.modify i fun r => { r with detached := true, dropped := true }

/-- Raises the abort signal; threads wake to it. -/
def abort (h : Hub) : Hub := { h with aborted := true }.settle

/-- Reads up to `k` bytes from reader `i`. -/
def read (h : Hub) (i : Nat) (k : Nat) : ReadStep × Hub :=
  match h.reader? i with
  | none => (.done (.ok []), h)
  | some r =>
    let (s, r) := r.read h.aborted k
    (s, h.modify i fun _ => r)

/-- Runs one pause action. An action on a reader the script does not hold, or an unknown
action, is refused. -/
def act (h : Hub) : Action → ActionResult × Hub
  | .closeReader i => if h.isHeld i then (.unit, h.close i) else (.refused .badPauseAction, h)
  | .dropReader i => if h.isHeld i then (.unit, h.drop i) else (.refused .badPauseAction, h)
  | .isClosed i =>
    match h.reader? i with
    | some r => if h.isHeld i then (.flag r.detached, h) else (.refused .badPauseAction, h)
    | none => (.refused .badPauseAction, h)
  | .abort => (.unit, h.abort)
  | .unknown => (.refused .badPauseAction, h)

/-- Runs a list of pause actions in order. -/
def actAll (h : Hub) : List Action → List ActionResult × Hub
  | [] => ([], h)
  | a :: rest =>
    let (r, h) := h.act a
    let (rs, h) := h.actAll rest
    (r :: rs, h)

/-- Queues a segment to reader `id`. -/
def enqueue (h : Hub) (id : Nat) (seg : List UInt8) : Hub :=
  h.modify id fun r => { r with queue := r.queue ++ [seg] }

/-- Offers a segment to the registrations `regs` from position `i` on; answers the hub and
the registrations left. -/
def distributeFrom (h : Hub) (seg : List UInt8) (regs : List Nat) (i : Nat) :
    Except Stop (Hub × List Nat) :=
  if hi : i < regs.length then
    if h.aborted then .error .aborted
    else
      let id := regs[i]
      match h.reader? id with
      | none => .error .blocked
      | some r =>
        if r.detached || r.dropped then
          have : (swapRemoveFront regs i).length < regs.length := by
            have := length_swapRemoveFront regs i hi
            omega
          distributeFrom h seg (swapRemoveFront regs i) i
        else if r.thread.isNone && r.queue.length ≥ h.queueLen then .error .blocked
        else distributeFrom (h.enqueue id seg).settle seg regs (i + 1)
  else .ok (h, regs)
termination_by regs.length - i

/-- Offers a segment to every registration. -/
def distribute (h : Hub) (seg : List UInt8) : Except Stop Hub :=
  (h.distributeFrom seg h.registrations 0).map fun (h, regs) => { h with registrations := regs }

/-- What a paused broadcast carries: the hub, the action lists not yet used, and the results
of the pauses reached, newest first. -/
structure Paused where
  hub : Hub
  lists : List (List Action)
  results : List (List ActionResult)

/-- Handles a pause: runs the next action list (none when they ran out). -/
def Paused.step (p : Paused) : Paused :=
  let (acts, rest) := match p.lists with
    | [] => ([], [])
    | a :: r => (a, r)
  let (rs, h) := p.hub.actAll acts
  ⟨h.settle, rest, rs :: p.results⟩

/-- The broadcast loop, for at most `fuel` segments: checks the abort signal, reads a full
segment, offers it if it is not empty, and goes on until the source ends. -/
def pump (fuel : Nat) (p : Paused) (src : Source) : Except Stop (Except Error Unit) × Paused :=
  match fuel with
  | 0 => (.ok (.ok ()), p)
  | fuel + 1 =>
    if p.hub.aborted then (.ok (.error (Error.aborted .broadcast)), p)
    else
      let (fill, src, p) := Source.readFull Paused.step p.hub.segmentLen p src
      let offered : Except Stop Paused :=
        if fill.bytes.isEmpty then .ok p
        else (p.hub.distribute fill.bytes).map fun h => { p with hub := h }
      match offered with
      | .error .blocked => (.error .blocked, p)
      | .error .aborted => (.ok (.error (Error.aborted .broadcast)), p)
      | .ok p =>
        match fill.ending with
        | none => pump fuel p src
        | some .eof => (.ok (.ok ()), p)
        | some (.failed e) => (.ok (.error (Error.io .broadcast e)), p)

/-- Lets go of every registration, leaving `t` in each registered reader's slot first. -/
def releaseAll (h : Hub) (t : Option Terminal) : Hub :=
  { h with readers := h.registrations.foldl (fun rs i => rs.modify i (Reader.release t)) h.readers,
           registrations := [] }

/-- Lets go of every registration as `releaseAll` does, then runs the threads. -/
def release (h : Hub) (t : Option Terminal) : Hub := (h.releaseAll t).settle

/-- What a broadcast that ended with `result` leaves in its readers' slots: the end of data,
the failure, or nothing after an abort. -/
def terminalOf : Except Error Unit → Option Terminal
  | .ok () => some .eof
  | .error e => if e.isAborted then none else some (.failed e)

/-- Broadcasts the source, with `lists` as the actions of its pauses. Answers the broadcast's
result and the results of the pauses reached, or `Stop.blocked` when a reader's queue would
fill. A second broadcast is refused as closed. Each full read either ends the source or consumes
at least one byte of it, so `weight + 1` rounds are enough. -/
def broadcast (h : Hub) (src : Source) (lists : List (List Action)) :
    Except Stop (Except Error Unit × List (List ActionResult) × Hub) :=
  if h.finished then .ok (.error (Error.closed .broadcast), [], h)
  else
    let p : Paused := ⟨{ h with finished := true }, lists, []⟩
    match pump (Source.weight src + 1) p src with
    | (.error s, _) => .error s
    | (.ok r, p) => .ok (r, p.results.reverse, p.hub.release (terminalOf r))

/-- Drops the broadcaster: if it never broadcast, every registered reader finds closed. -/
def dropBroadcaster (h : Hub) : Hub :=
  if h.finished then h else h.release (some .closed)

end Hub

end Plumbing.Broadcast
