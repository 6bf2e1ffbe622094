import Plumbing.Scan.Scanner
import Plumbing.Scan.Splitter

/-!
# Probing a scanner

A probe runs a `Scanner` with a `Splitter` and a token callback that can be told to fail, and
records every call either receives. The callback fails on the calls whose index (counting all
calls from 0) is listed, and on every call while `failTokens` is set; while `failSplits` is set
the splitter fails with `"split failed"` before doing anything else.

A probe is driven by a list of `Step`s; each step reports its result, the tokens the callback
received during it (the failing one included), the held bytes and whether the scanner is closed
after it, and the splitter calls made during it, as the data each call was given and the
end-of-input flag.
-/

namespace Plumbing.Scan

/-- The splitter and the token callback of a probe, with what they recorded during the
current step (newest first). -/
structure Probe where
  splitter : Splitter
  failSplits : Bool
  failTokens : Bool
  failAt : List Nat
  tokenMessage : String
  calls : Nat
  tokens : List (List UInt8)
  splits : List (List UInt8 × Bool)

namespace Probe

/-- A probe with the given splitter and failing calls, before any call. -/
def new (splitter : Splitter) (failAt : List Nat) (tokenMessage : String) : Probe :=
  ⟨splitter, false, false, failAt, tokenMessage, 0, [], []⟩

/-- The probe's splitter and callback as hooks of a scan. -/
def hooks : Hooks Probe where
  split p data atEof :=
    let p := { p with splits := (data, atEof) :: p.splits }
    if p.failSplits then (.error "split failed", p)
    else
      let (r, next) := p.splitter.call data atEof
      (r, { p with splitter := next })
  emit p tok :=
    let i := p.calls
    let p := { p with calls := i + 1, tokens := tok :: p.tokens }
    if p.failTokens || p.failAt.contains i then (.error p.tokenMessage, p) else (.ok (), p)

end Probe

/-- The calls a probe makes on its scanner. -/
inductive Step
  | write (data : List UInt8)
  /-- A write through the io interface, answered with the count written. -/
  | ioWrite (data : List UInt8)
  /-- A write of all of `data` through the io interface; nothing is written for empty data. -/
  | ioWriteAll (data : List UInt8)
  | flush
  | ioFlush
  | close
  /-- Sets or clears the splitter's and the callback's failing, where given. -/
  | set (failSplits failTokens : Option Bool)
  /-- Reports the scanner's limit. -/
  | info
  deriving DecidableEq, Repr

/-- What a step answers when it succeeds. -/
inductive Value
  | count (n : Nat)
  | unit
  | limit (n : Nat)
  deriving DecidableEq, Repr

/-- A step's report. -/
structure Report where
  result : Except Error Value
  tokens : List (List UInt8)
  pending : List UInt8
  closed : Bool
  splits : List (List UInt8 × Bool)

/-- Runs one step on the scanner and the probe. -/
def Step.apply (sc : Scanner) (p : Probe) : Step → Except Error Value × Scanner × Probe
  | .write data | .ioWrite data =>
    let (r, sc, p) := sc.write Probe.hooks p data
    (r.map .count, sc, p)
  | .ioWriteAll data =>
    if data.isEmpty then (.ok .unit, sc, p)
    else
      let (r, sc, p) := sc.write Probe.hooks p data
      (r.map (fun _ => .unit), sc, p)
  | .flush | .ioFlush =>
    let (r, sc, p) := sc.flush Probe.hooks p
    (r.map (fun _ => .unit), sc, p)
  | .close =>
    let (r, sc, p) := sc.close Probe.hooks p
    (r.map (fun _ => .unit), sc, p)
  | .set fs ft =>
    (.ok .unit, sc, { p with failSplits := fs.getD p.failSplits, failTokens := ft.getD p.failTokens })
  | .info => (.ok (.limit sc.limit), sc, p)

/-- Runs the steps in order, reporting each. -/
def runSteps (sc : Scanner) (p : Probe) : List Step → List Report
  | [] => []
  | st :: rest =>
    let (r, sc, p) := st.apply sc { p with tokens := [], splits := [] }
    ⟨r, p.tokens.reverse, sc.pending, sc.closed, p.splits.reverse⟩ :: runSteps sc p rest

/-- Runs a probe over a fresh scanner holding at most `limit` bytes. -/
def probe (limit : Nat) (splitter : Splitter) (failAt : List Nat) (tokenMessage : String)
    (steps : List Step) : List Report :=
  runSteps (Scanner.new limit) (Probe.new splitter failAt tokenMessage) steps

end Plumbing.Scan
