/-!
# Refused calls

Some calls a script asks for cannot be made: they name an object that does not exist, or they
would wait forever in a run where nothing else moves. Such a call is refused instead, with a
`Refusal`: it either names what is missing or says that the call would block.
-/

namespace Plumbing

/-- Why a scripted call was refused instead of made. -/
inductive Refusal
  /-- No reader with this id is held by the script (never made, dropped, or moved to its own
  thread). -/
  | noSuchReader
  /-- An action at a pause of the broadcast names no reader held by the script, or no known
  action. -/
  | badPauseAction
  /-- The broadcaster was dropped. -/
  | broadcasterDropped
  /-- A read before the broadcast, with nothing to deliver it, would wait forever. -/
  | readWouldBlock
  /-- A broadcast would fill a reader's queue that nobody reads. -/
  | queueWouldFill
  /-- No segment with this id is held. -/
  | noSuchSegment
  /-- A step came after the writer was dropped. -/
  | writerDropped
  /-- A sink panicked while closing on the caller's own thread. -/
  | sinkPanicked
  deriving DecidableEq, Repr

namespace Refusal

/-- Whether the refusal is for a call that would block, rather than for a bad request. -/
def blocks : Refusal → Bool
  | .readWouldBlock | .queueWouldFill => true
  | _ => false

/-- The refusal's message. -/
def message : Refusal → String
  | .noSuchReader => "no such synchronous reader"
  | .badPauseAction => "bad pause action"
  | .broadcasterDropped => "broadcaster dropped"
  | .readWouldBlock => "read before the broadcast would block"
  | .queueWouldFill => "a synchronous reader's queue would fill"
  | .noSuchSegment => "no such held segment"
  | .writerDropped => "writer dropped"
  | .sinkPanicked => "sink panicked"

end Refusal

end Plumbing
