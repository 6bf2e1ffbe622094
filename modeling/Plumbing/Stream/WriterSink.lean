import Plumbing.Error

/-!
# Writers as sinks

A `WriterSink` makes a plain writer into a sink. It holds the writer until it is closed: closing
flushes the writer and lets it go, even when the flush fails, so a second close has nothing to
do, and a write or flush after closing fails with a broken pipe.

The writer here records what it is given and counts its flushes; a flush fails with
`flushFailure` when that is set.
-/

namespace Plumbing.Stream

/-- A recording writer held by a sink. -/
structure WriterSink where
  data : List UInt8
  flushes : Nat
  flushFailure : Option String
  /-- Whether the sink still holds its writer. -/
  holding : Bool
  deriving DecidableEq, Repr

namespace WriterSink

/-- A sink holding a writer that has received nothing. -/
def new (flushFailure : Option String) : WriterSink := ⟨[], 0, flushFailure, true⟩

/-- The failure of a call on a sink that let go of its writer. -/
def brokenPipe : IoError := ⟨.brokenPipe, none⟩

/-- Flushes the writer held. -/
def flushWriter (s : WriterSink) : Except IoError Unit × WriterSink :=
  let s := { s with flushes := s.flushes + 1 }
  match s.flushFailure with
  | some m => (.error ⟨.other, some m⟩, s)
  | none => (.ok (), s)

/-- Writes `data`; answers its length. -/
def write (s : WriterSink) (data : List UInt8) : Except IoError Nat × WriterSink :=
  if s.holding then (.ok data.length, { s with data := s.data ++ data })
  else (.error brokenPipe, s)

/-- Flushes the writer. -/
def flush (s : WriterSink) : Except IoError Unit × WriterSink :=
  if s.holding then s.flushWriter else (.error brokenPipe, s)

/-- Closes the sink: flushes the writer and lets it go. -/
def close (s : WriterSink) : Except IoError Unit × WriterSink :=
  if s.holding then s.flushWriter.map id fun s => { s with holding := false } else (.ok (), s)

/-- Whether the sink was closed. -/
def isClosed (s : WriterSink) : Bool := !s.holding

end WriterSink

end Plumbing.Stream
