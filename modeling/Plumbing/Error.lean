/-!
# Errors of stream operations

An error names the operation that failed and what went wrong. What went wrong is a `Fault`:
most faults are bare kinds, and a few carry a cause (an io failure, a callback's message, the
counts of a short write or an overflow, a worker that stopped). The display text is
`"<operation> failed; <kind>"`, followed by the cause in parentheses when there is one.

An error also answers to io callers: `Error.ioKind` is the io kind it is reported under, and
`IoFailure` is what such a caller sees, one of these errors or a bare io failure.
-/

namespace Plumbing

/-- The operations an error is attributed to. -/
inductive Operation
  | unknown
  | start
  | read
  | write
  | flush
  | close
  | broadcast
  | split
  | token
  deriving DecidableEq, Repr, Inhabited

namespace Operation

/-- How an operation reads in an error's display text. -/
def text : Operation → String
  | .unknown => "unknown operation"
  | .start => "start"
  | .read => "read"
  | .write => "write"
  | .flush => "flush"
  | .close => "close"
  | .broadcast => "broadcast"
  | .split => "split"
  | .token => "token callback"

/-- Every operation, in declaration order. -/
def all : List Operation :=
  [.unknown, .start, .read, .write, .flush, .close, .broadcast, .split, .token]

/-- The operation's name in reports. -/
def name : Operation → String
  | .unknown => "Unknown"
  | .start => "Start"
  | .read => "Read"
  | .write => "Write"
  | .flush => "Flush"
  | .close => "Close"
  | .broadcast => "Broadcast"
  | .split => "Split"
  | .token => "Token"

/-- The operation with a given report name. -/
def ofName? (s : String) : Option Operation :=
  all.find? (fun op => op.name == s)

end Operation

/-- Kinds of io failure. -/
inductive IoKind
  | other
  | notFound
  | permissionDenied
  | connectionRefused
  | connectionReset
  | connectionAborted
  | brokenPipe
  | wouldBlock
  | invalidInput
  | invalidData
  | timedOut
  | writeZero
  | interrupted
  | unsupported
  | unexpectedEof
  | outOfMemory
  deriving DecidableEq, Repr, Inhabited

namespace IoKind

/-- Every io kind, in declaration order. -/
def all : List IoKind :=
  [.other, .notFound, .permissionDenied, .connectionRefused, .connectionReset,
    .connectionAborted, .brokenPipe, .wouldBlock, .invalidInput, .invalidData, .timedOut,
    .writeZero, .interrupted, .unsupported, .unexpectedEof, .outOfMemory]

/-- The io kind's name in reports. -/
def name : IoKind → String
  | .other => "Other"
  | .notFound => "NotFound"
  | .permissionDenied => "PermissionDenied"
  | .connectionRefused => "ConnectionRefused"
  | .connectionReset => "ConnectionReset"
  | .connectionAborted => "ConnectionAborted"
  | .brokenPipe => "BrokenPipe"
  | .wouldBlock => "WouldBlock"
  | .invalidInput => "InvalidInput"
  | .invalidData => "InvalidData"
  | .timedOut => "TimedOut"
  | .writeZero => "WriteZero"
  | .interrupted => "Interrupted"
  | .unsupported => "Unsupported"
  | .unexpectedEof => "UnexpectedEof"
  | .outOfMemory => "OutOfMemory"

/-- The io kind with a given report name. -/
def ofName? (s : String) : Option IoKind :=
  all.find? (fun k => k.name == s)

end IoKind

/-- An io failure: its kind and its text; a failure made from a kind alone has no text. -/
structure IoError where
  kind : IoKind
  text : Option String
  deriving DecidableEq, Repr, Inhabited

/-- The cause of an io fault: an io failure, or a sink worker that stopped by panicking. -/
inductive IoCause
  | failure (e : IoError)
  | workerPanicked (index : Nat)
  deriving DecidableEq, Repr

/-- What went wrong, with the cause where the kind has one. -/
inductive Fault
  | closed
  | aborted
  /-- The bytes held after a write exceed the limit. -/
  | overflow (pending limit : Nat)
  /-- A sink accepted fewer bytes than it was given. -/
  | shortWrite (written len : Nat)
  | io (cause : IoCause)
  /-- A splitter or a token callback failed with a message. -/
  | callback (message : String)
  | advanceTooFar
  | noProgress
  | alreadyStarted
  deriving DecidableEq, Repr

/-- The kinds of fault, without their causes. -/
inductive ErrorKind
  | closed
  | aborted
  | overflow
  | shortWrite
  | io
  | callback
  | advanceTooFar
  | noProgress
  | alreadyStarted
  deriving DecidableEq, Repr

namespace ErrorKind

/-- How a kind reads in an error's display text. -/
def text : ErrorKind → String
  | .closed => "closed"
  | .aborted => "aborted"
  | .overflow => "buffer overflow"
  | .shortWrite => "short write"
  | .io => "IO error"
  | .callback => "callback error"
  | .advanceTooFar => "split advanced past the end of input"
  | .noProgress => "split made no progress"
  | .alreadyStarted => "already started"

/-- The kind's name in reports. -/
def name : ErrorKind → String
  | .closed => "Closed"
  | .aborted => "Aborted"
  | .overflow => "Overflow"
  | .shortWrite => "ShortWrite"
  | .io => "Io"
  | .callback => "Callback"
  | .advanceTooFar => "AdvanceTooFar"
  | .noProgress => "NoProgress"
  | .alreadyStarted => "AlreadyStarted"

end ErrorKind

namespace Fault

/-- The kind of a fault. -/
def kind : Fault → ErrorKind
  | .closed => .closed
  | .aborted => .aborted
  | .overflow _ _ => .overflow
  | .shortWrite _ _ => .shortWrite
  | .io _ => .io
  | .callback _ => .callback
  | .advanceTooFar => .advanceTooFar
  | .noProgress => .noProgress
  | .alreadyStarted => .alreadyStarted

/-- Whether the fault carries a cause. -/
def hasCause : Fault → Bool
  | .overflow _ _ | .shortWrite _ _ | .io _ | .callback _ => true
  | _ => false

/-- The text of the fault's cause; `none` without a cause, and for an io failure made from a
kind alone, whose text is not known here. -/
def causeText : Fault → Option String
  | .overflow n limit =>
    some ("pending " ++ toString n ++ " bytes exceed the " ++ toString limit ++ " byte limit")
  | .shortWrite written len =>
    some ("sink accepted " ++ toString written ++ " of " ++ toString len ++ " bytes")
  | .io (.failure e) => e.text
  | .io (.workerPanicked i) => some ("sink worker " ++ toString i ++ " panicked")
  | .callback m => some m
  | _ => none

end Fault

/-- An error: the operation that failed and what went wrong. -/
structure Error where
  op : Operation
  fault : Fault
  deriving DecidableEq, Repr

namespace Error

/-- The operation was refused because the object was closed. -/
def closed (op : Operation) : Error := ⟨op, .closed⟩

/-- The operation was stopped by an abort. -/
def aborted (op : Operation) : Error := ⟨op, .aborted⟩

/-- An io failure during the operation. -/
def io (op : Operation) (e : IoError) : Error := ⟨op, .io (.failure e)⟩

/-- A callback (splitter or token callback) failed with a message. -/
def callback (op : Operation) (message : String) : Error := ⟨op, .callback message⟩

/-- A sink accepted `written` of `len` bytes. -/
def shortWrite (written len : Nat) : Error := ⟨.write, .shortWrite written len⟩

/-- The bytes held after a write exceed the limit. -/
def overflow (pending limit : Nat) : Error := ⟨.write, .overflow pending limit⟩

/-- Sink worker `index` stopped by panicking. -/
def workerPanicked (op : Operation) (index : Nat) : Error := ⟨op, .io (.workerPanicked index)⟩

/-- The same error attributed to another operation. -/
def withOp (e : Error) (op : Operation) : Error := { e with op := op }

/-- The kind of the error. -/
def kind (e : Error) : ErrorKind := e.fault.kind

/-- Whether the error is of kind closed. -/
def isClosed (e : Error) : Bool := e.kind == .closed

/-- Whether the error is of kind aborted. -/
def isAborted (e : Error) : Bool := e.kind == .aborted

/-- The display text; `none` when the cause is an io failure made from a kind alone. -/
def message (e : Error) : Option String :=
  let head := e.op.text ++ " failed; " ++ e.kind.text
  if e.fault.hasCause then e.fault.causeText.map (fun t => head ++ " (" ++ t ++ ")")
  else some head

/-- The io failure that caused the error, if one did. -/
def ioSource? (e : Error) : Option IoError :=
  match e.fault with
  | .io (.failure f) => some f
  | _ => none

/-- The io kind the error is reported under when it crosses an io interface. -/
def ioKind (e : Error) : IoKind :=
  match e.fault with
  | .closed => .brokenPipe
  | .aborted => .connectionAborted
  | .shortWrite _ _ => .writeZero
  | .overflow _ _ | .advanceTooFar | .noProgress => .invalidData
  | .io (.failure f) => f.kind
  | .io (.workerPanicked _) => .other
  | .callback _ | .alreadyStarted => .other

end Error

/-- A failure as an io caller sees it: one of this library's errors, or a bare io failure. -/
inductive IoFailure
  | error (e : Error)
  | plain (e : IoError)
  deriving DecidableEq, Repr

end Plumbing

namespace Plumbing

/-- An error handed to an io caller, who sees it as an io failure carrying the error. -/
def Error.toIoFailure (e : Error) : IoFailure := .error e

/-- The error an io failure carries, if it carries one of this library's errors. -/
def IoFailure.recover? : IoFailure → Option Error
  | .error e => some e
  | .plain _ => none

end Plumbing
