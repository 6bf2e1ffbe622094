/-!
# Reading to the end

`Drain.run` reads a reader to its end, a fixed number of bytes at a time: it stops at the first
read that answers no bytes (the end of data) or an error, and records the bytes read and the
size of each read that gave bytes. It makes at most a given number of reads (`maxReads` unless
told otherwise), and says so when they run out first. A read that would wait stops the whole
drain (`none`).
-/

namespace Plumbing.Stream

/-- How reading to the end stopped: at the end of data, at an error, or because the reads
allowed ran out. -/
inductive Ending (ε : Type)
  | eof
  | failed (e : ε)
  | exhausted
  deriving DecidableEq, Repr

/-- What reading to the end gave: the bytes, the sizes of the reads that gave bytes, and how it
stopped. -/
structure Drain (ε : Type) where
  data : List UInt8
  reads : List Nat
  ending : Ending ε
  deriving Repr

namespace Drain

/-- The reads allowed when reading to the end, unless told otherwise. -/
def maxReads : Nat := 10000

/-- The loop of `run`, with the pieces read so far, newest first. -/
def runFrom {σ ε : Type} (read : σ → Option (Except ε (List UInt8) × σ)) :
    Nat → σ → List (List UInt8) → Option (Drain ε × σ)
  | 0, s, pieces => some (⟨pieces.reverse.flatten, pieces.reverse.map List.length, .exhausted⟩, s)
  | fuel + 1, s, pieces =>
    let done (e : Ending ε) (s : σ) : Drain ε × σ :=
      (⟨pieces.reverse.flatten, pieces.reverse.map List.length, e⟩, s)
    match read s with
    | none => none
    | some (.ok [], s) => some (done .eof s)
    | some (.ok b, s) => runFrom read fuel s (b :: pieces)
    | some (.error e, s) => some (done (.failed e) s)

/-- Reads with `read` until no bytes or an error, at most `fuel` times; `none` when a read
would wait. -/
def run {σ ε : Type} (read : σ → Option (Except ε (List UInt8) × σ)) (fuel : Nat) (s : σ) :
    Option (Drain ε × σ) :=
  runFrom read fuel s []

end Drain

end Plumbing.Stream
