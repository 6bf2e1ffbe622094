import Plumbing.Error
import Plumbing.Scan.Split

/-!
# The scanning writer

A `Scanner` turns writes into tokens. It holds the bytes after the last boundary found
(`pending`), at most `limit` of them between calls. Each write scans the held bytes followed by
the new ones: the splitter is called on what is left from each boundary on, and every token it
finds goes to the token callback. What the splitter does not consume is held for the next
write. A flush scans the held bytes as the end of input; a close flushes and then refuses every
later call.

Splitter and callback are `Hooks` over a state `σ` of the caller's choice, so a scan is a pure
function of the hooks, their state and the bytes.

The rules of one scan (`Hooks.scan`):

* a splitter failure, an advance past the end of the data, a callback failure, or a 101st
  consecutive token that consumes nothing stop the scan with an error, and the bytes consumed
  so far are those before the failing call;
* an answer with neither advance nor token stops the scan without error;
* at the end of input an empty token is not passed to the callback.
-/

namespace Plumbing.Scan

/-- The splitter and the token callback a scan calls, over a state both may change. -/
structure Hooks (σ : Type) where
  split : σ → List UInt8 → Bool → Except String Split × σ
  emit : σ → List UInt8 → Except String Unit × σ

/-- How many tokens in a row may consume nothing before a scan gives up. -/
def maxEmptyTokens : Nat := 100

/-- What a scan leaves: the bytes consumed, the error that stopped it (if any), and the hooks'
state. -/
structure Pass (σ : Type) where
  consumed : Nat
  error : Option Error
  state : σ

namespace Hooks

variable {σ : Type}

/-- The scan loop: `rest` is the data from `start` on, `empties` the tokens in a row that
consumed nothing. -/
def scanFrom (h : Hooks σ) (atEof : Bool) (s : σ) (rest : List UInt8) (start empties : Nat) :
    Pass σ :=
  match rest with
  | [] => ⟨start, none, s⟩
  | b :: more =>
    match h.split s (b :: more) atEof with
    | (.error m, s1) => ⟨start, some (Error.callback .split m), s1⟩
    | (.ok sp, s1) =>
      if fits : hasAtLeast sp.advance (b :: more) = false then
        ⟨start, some ⟨.split, .advanceTooFar⟩, s1⟩
      else
        have fits : sp.advance ≤ more.length + 1 := by
          have := (hasAtLeast_iff sp.advance (b :: more)).1 (by simpa using fits)
          simpa using this
        match sp.token with
        | none =>
          if _zero : sp.advance = 0 then ⟨start, none, s1⟩
          else h.scanFrom atEof s1 ((b :: more).drop sp.advance) (start + sp.advance) empties
        | some tok =>
          let (r, s2) := if atEof && tok.isEmpty then (.ok (), s1) else h.emit s1 tok
          match r with
          | .error m => ⟨start, some (Error.callback .token m), s2⟩
          | .ok () =>
            if _zero : sp.advance = 0 then
              if _many : empties + 1 > maxEmptyTokens then ⟨start, some ⟨.split, .noProgress⟩, s2⟩
              else h.scanFrom atEof s2 (b :: more) start (empties + 1)
            else h.scanFrom atEof s2 ((b :: more).drop sp.advance) (start + sp.advance) 0
termination_by (rest.length, maxEmptyTokens + 1 - empties)
decreasing_by
  all_goals simp only [List.length_drop, List.length_cons]
  · exact Prod.Lex.left _ _ (by omega)
  · exact Prod.Lex.right _ (by omega)
  · exact Prod.Lex.left _ _ (by omega)

/-- Scans `data` from its start. -/
def scan (h : Hooks σ) (atEof : Bool) (s : σ) (data : List UInt8) : Pass σ :=
  h.scanFrom atEof s data 0 0

end Hooks

/-- A scanning writer: the bytes held after the last boundary, the bound on them between
calls, and whether it was closed. -/
structure Scanner where
  pending : List UInt8
  limit : Nat
  closed : Bool
  deriving DecidableEq, Repr

namespace Scanner

variable {σ : Type}

/-- A fresh scanner holding at most `limit` bytes between calls. -/
def new (limit : Nat) : Scanner := ⟨[], limit, false⟩

/-- Writes `data`: scans the held bytes followed by `data`, and holds what is not consumed.
The answer is the length of `data`; an error, or more than `limit` bytes left over, drops the
held bytes instead.

With nothing held, `data` is scanned where it lies and its unconsumed tail is then appended to
the (empty) held bytes; otherwise `data` is appended to the held bytes first, and the consumed
head is dropped after the scan. -/
def write (h : Hooks σ) (s : σ) (sc : Scanner) (data : List UInt8) :
    Except Error Nat × Scanner × σ :=
  if sc.closed then (.error (Error.closed .write), sc, s)
  else
    let direct := sc.pending.isEmpty
    let input := if direct then data else sc.pending ++ data
    let p := h.scan false s input
    match p.error with
    | some e => (.error e, { sc with pending := [] }, p.state)
    | none =>
      let left := input.length - p.consumed
      if left > sc.limit then (.error (Error.overflow left sc.limit), { sc with pending := [] }, p.state)
      else
        let held := if direct then sc.pending ++ data.drop p.consumed else input.drop p.consumed
        (.ok data.length, { sc with pending := held }, p.state)

/-- Both paths of a write scan the held bytes followed by the data, and hold what the scan
leaves of that. -/
theorem write_eq_append (h : Hooks σ) (s : σ) (sc : Scanner) (data : List UInt8) :
    sc.write h s data =
      if sc.closed then (.error (Error.closed .write), sc, s)
      else
        let input := sc.pending ++ data
        let p := h.scan false s input
        match p.error with
        | some e => (.error e, { sc with pending := [] }, p.state)
        | none =>
          let left := input.length - p.consumed
          if left > sc.limit then
            (.error (Error.overflow left sc.limit), { sc with pending := [] }, p.state)
          else (.ok data.length, { sc with pending := input.drop p.consumed }, p.state) := by
  obtain ⟨pending, limit, closed⟩ := sc
  cases pending with
  | nil => simp [write]
  | cons b bs => simp [write]

/-- Flushes: scans the held bytes as the end of input. A failure of the splitter keeps the
bytes it did not consume; any other outcome drops them. Errors are attributed to the flush. -/
def flush (h : Hooks σ) (s : σ) (sc : Scanner) : Except Error Unit × Scanner × σ :=
  if sc.closed then (.error (Error.closed .flush), sc, s)
  else if sc.pending.isEmpty then (.ok (), sc, s)
  else
    let p := h.scan true s sc.pending
    match p.error with
    | some e =>
      if e.op = .split then (.error (e.withOp .flush), { sc with pending := sc.pending.drop p.consumed }, p.state)
      else (.error (e.withOp .flush), { sc with pending := [] }, p.state)
    | none => (.ok (), { sc with pending := [] }, p.state)

/-- Closes: flushes, and on success refuses every later call. -/
def close (h : Hooks σ) (s : σ) (sc : Scanner) : Except Error Unit × Scanner × σ :=
  if sc.closed then (.error (Error.closed .close), sc, s)
  else
    match sc.flush h s with
    | (.error e, sc', s') => (.error e, sc', s')
    | (.ok (), sc', s') => (.ok (), { sc' with closed := true }, s')

/-- Writes through the io interface: a write whose error reaches the caller as an io failure. -/
def ioWrite (h : Hooks σ) (s : σ) (sc : Scanner) (data : List UInt8) :
    Except IoFailure Nat × Scanner × σ :=
  let (r, sc', s') := sc.write h s data
  (r.mapError Error.toIoFailure, sc', s')

/-- Flushes through the io interface, ending the input as `flush` does; its error reaches the
caller as an io failure. -/
def ioFlush (h : Hooks σ) (s : σ) (sc : Scanner) : Except IoFailure Unit × Scanner × σ :=
  let (r, sc', s') := sc.flush h s
  (r.mapError Error.toIoFailure, sc', s')

end Scanner

end Plumbing.Scan
