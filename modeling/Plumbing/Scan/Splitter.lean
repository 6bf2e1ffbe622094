import Plumbing.Scan.Split

/-!
# Splitters with state

A `Splitter` is one of the built-in splitters, a splitter cutting at a delimiter byte, one that
always asks for more input, or a scripted splitter. A scripted splitter answers from a list of
cues, each a reply given a number of times in a row, and hands the calls after the last cue to
another splitter. Its replies may consume more than the data holds, find tokens anywhere in the
data, or fail with a message: the cases a scanner has to survive.

`Splitter.call` answers one call and returns the splitter's next state.
-/

namespace Plumbing.Scan

open Plumbing.Text

/-- A scripted reply to one splitter call. -/
inductive Reply
  /-- Consume `advance` bytes without a token. -/
  | skip (advance : Nat)
  /-- Consume `advance` bytes and pass on the bytes from `start` to `stop` (to the end when
  `stop` is `none`), both cut back to the data. -/
  | token (advance start : Nat) (stop : Option Nat)
  /-- Fail with a message. -/
  | fail (message : String)
  deriving DecidableEq, Repr

/-- A reply given `count` times in a row. -/
structure Cue where
  reply : Reply
  count : Nat
  deriving DecidableEq, Repr

/-- The splitters a scanner can run. -/
inductive Splitter
  | lines
  | bytes
  | runes
  /-- Words between blanks; `ascii` picks the ASCII blanks over the Unicode ones. -/
  | words (ascii : Bool)
  /-- Always asks for more input. -/
  | more
  /-- Cuts before each `byte`; with `atEofOnly`, only once the input has ended. -/
  | delimiter (byte : UInt8) (atEofOnly : Bool)
  /-- Answers from `cues`, then hands over to `next`. -/
  | scripted (cues : List Cue) (next : Splitter)
  deriving DecidableEq, Repr

/-- The bytes from `start` to `stop` of `data`, where `stop` is cut back to the length of
`data` (`none` is the end) and `start` to `stop`. -/
def slice (data : List UInt8) (start : Nat) (stop : Option Nat) : List UInt8 :=
  let e := min (stop.getD data.length) data.length
  let s := min start e
  (data.drop s).take (e - s)

/-- The answer of a scripted reply on `data`. -/
def Reply.answer (data : List UInt8) : Reply → Except String Split
  | .skip n => .ok (.skip n)
  | .token n s e => .ok (.found n (slice data s e))
  | .fail m => .error m

/-- The first cue that still has a reply to give, with the cues left after giving it. -/
def nextCue : List Cue → Option (Reply × List Cue)
  | [] => none
  | c :: rest =>
    if c.count = 0 then nextCue rest
    else if c.count = 1 then some (c.reply, rest)
    else some (c.reply, { c with count := c.count - 1 } :: rest)

/-- Cuts before the first `byte`; without one, the end of input is the last cut. -/
def delimited (byte : UInt8) (atEofOnly : Bool) (data : List UInt8) (atEof : Bool) : Split :=
  if atEofOnly && !atEof then .more
  else
    match data.idxOf? byte with
    | some i => .found (i + 1) (data.take i)
    | none => if atEof then .found data.length data else .more

/-- One call of a splitter on the held bytes: its answer and its next state. -/
def Splitter.call : Splitter → List UInt8 → Bool → Except String Split × Splitter
  | .lines, data, atEof => (.ok (Scan.lines data atEof), .lines)
  | .bytes, data, atEof => (.ok (Scan.bytes data atEof), .bytes)
  | .runes, data, atEof => (.ok (Scan.runes data atEof), .runes)
  | .words ascii, data, atEof =>
    (.ok (Scan.words (if ascii then isAsciiBlank else isBlank) data atEof), .words ascii)
  | .more, _, _ => (.ok .more, .more)
  | .delimiter b o, data, atEof => (.ok (delimited b o data atEof), .delimiter b o)
  | .scripted cues next, data, atEof =>
    match nextCue cues with
    | some (r, rest) => (r.answer data, .scripted rest next)
    | none =>
      let (a, next') := next.call data atEof
      (a, .scripted [] next')

/-- Calls the splitter up to `n` times, each time on the data from where the previous answer
left off. The calls stop after an answer that consumes nothing, a failure, or an advance past
the end of the data. -/
def Splitter.callRepeatedly : Splitter → List UInt8 → Bool → Nat → List (Except String Split)
  | _, _, _, 0 => []
  | sp, data, atEof, n + 1 =>
    let (r, next) := sp.call data atEof
    match r with
    | .error _ => [r]
    | .ok a =>
      if a.advance = 0 || !hasAtLeast a.advance data then [r]
      else r :: next.callRepeatedly (data.drop a.advance) atEof n

/-- The most calls a repeated probe makes. -/
def maxProbeCalls : Nat := 10000

/-- A repeated probe of a splitter: a first call whose answer is set aside, then up to `n`
calls (at most `maxProbeCalls`) from the state that first call left the splitter in. -/
def Splitter.probeRepeatedly (sp : Splitter) (data : List UInt8) (atEof : Bool) (n : Nat) :
    List (Except String Split) :=
  (sp.call data atEof).2.callRepeatedly data atEof (min n maxProbeCalls)

end Plumbing.Scan
