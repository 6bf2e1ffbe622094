import Plumbing.Error

/-!
# Scripted sources and full reads

A scripted source is a list of chunks read in order: data (each read takes as many of its
bytes as the buffer holds), an interruption (one read fails with `interrupted`, to be retried),
a failure, the end of data, or a pause (where whoever drives the source may act before the
read goes on). After the last chunk every read finds the end of data; a failure of kind
`interrupted` counts as an interruption.

`readFull` fills a buffer of `n` bytes from a source: it reads until the buffer is full, the
end of data is found, or a read fails, retrying interruptions and handing pauses to a handler.
The bytes of a full read are the bytes still to come before the next end or failure, cut at
`n`. Every read that does not find the end consumes a chunk or a byte, so `readFull`
terminates (`weight_read_lt`).
-/

namespace Plumbing.Stream

/-- An item of a scripted source. -/
inductive Chunk
  | data (bytes : List UInt8)
  | interrupt
  | fail (e : IoError)
  | eof
  | pause
  deriving DecidableEq, Repr

/-- A scripted source: the chunks still to be read. -/
abbrev Source := List Chunk

/-- What one read of a source yields. -/
inductive Yield
  /-- Some bytes, never none. -/
  | bytes (b : List UInt8)
  /-- The end of data: a read of no bytes. -/
  | done
  | interrupted
  | failed (e : IoError)
  /-- A pause was reached; the read goes on after it. -/
  | paused
  deriving DecidableEq, Repr

/-- How a full read ended before its buffer was full. -/
inductive End
  | eof
  | failed (e : IoError)
  deriving DecidableEq, Repr

/-- The size of a chunk, for the termination of reads. -/
def Chunk.weight : Chunk → Nat
  | .data b => b.length + 1
  | _ => 1

namespace Source

/-- One read into a buffer of `n` bytes (at least one byte is asked for). Empty data chunks
are passed over. -/
def read (n : Nat) : Source → Yield × Source
  | [] => (.done, [])
  | .data [] :: rest => read n rest
  | .data (b :: bs) :: rest =>
    let m := max n 1
    (.bytes ((b :: bs).take m), if m < bs.length + 1 then .data ((b :: bs).drop m) :: rest else rest)
  | .interrupt :: rest => (.interrupted, rest)
  | .fail e :: rest => (if e.kind = .interrupted then .interrupted else .failed e, rest)
  | .eof :: rest => (.done, .eof :: rest)
  | .pause :: rest => (.paused, rest)

/-- The size of a source: what reads still have to consume. -/
def weight (src : Source) : Nat := (src.map Chunk.weight).foldr (· + ·) 0

@[simp] theorem weight_nil : weight [] = 0 := rfl

@[simp] theorem weight_cons (c : Chunk) (src : Source) :
    weight (c :: src) = c.weight + weight src := by
  simp [weight]

/-- A read that does not find the end of data makes the source smaller. -/
theorem weight_read_lt (n : Nat) (src : Source) (h : (read n src).1 ≠ .done) :
    weight (read n src).2 < weight src := by
  induction src with
  | nil => simp [read] at h
  | cons c rest ih =>
    cases c with
    | data bs =>
      cases bs with
      | nil =>
        simp only [read] at h ⊢
        have := ih h
        simp [Chunk.weight]
        omega
      | cons b bs =>
        simp only [read]
        split
        · simp only [weight_cons, Chunk.weight, List.length_drop, List.length_cons]
          omega
        · simp only [weight_cons, Chunk.weight, List.length_cons]
          omega
    | interrupt => simp [read, Chunk.weight]
    | fail e => simp [read, Chunk.weight]
    | eof => simp [read] at h
    | pause => simp [read, Chunk.weight]

end Source

/-- A full read's outcome: the bytes read, and how the read ended if the buffer is not full. -/
structure Fill where
  bytes : List UInt8
  ending : Option End
  deriving DecidableEq, Repr

namespace Source

/-- The loop of a full read: `acc` holds the pieces read so far (newest first), `count` their
total length. -/
def fillFrom {τ : Type} (onPause : τ → τ) (n : Nat) (t : τ) (src : Source)
    (acc : List (List UInt8)) (count : Nat) : Fill × Source × τ :=
  if count < n then
    match _hr : read (n - count) src with
    | (.bytes b, src') => fillFrom onPause n t src' (b :: acc) (count + b.length)
    | (.done, src') => (⟨acc.reverse.flatten, some .eof⟩, src', t)
    | (.interrupted, src') => fillFrom onPause n t src' acc count
    | (.failed e, src') => (⟨acc.reverse.flatten, some (.failed e)⟩, src', t)
    | (.paused, src') => fillFrom onPause n (onPause t) src' acc count
  else (⟨acc.reverse.flatten, none⟩, src, t)
termination_by weight src
decreasing_by
  all_goals
    have hlt := weight_read_lt (n - count) src (by rw [_hr]; simp)
    rw [_hr] at hlt
    exact hlt

/-- Fills a buffer of `n` bytes from the source, handing each pause to `onPause`. -/
def readFull {τ : Type} (onPause : τ → τ) (n : Nat) (t : τ) (src : Source) : Fill × Source × τ :=
  fillFrom onPause n t src [] 0

end Source

end Plumbing.Stream
