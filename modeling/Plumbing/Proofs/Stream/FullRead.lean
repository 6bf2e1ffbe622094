import Plumbing.Proofs.Prefetch.Segments

/-!
# What a full read returns

A full read of `n` bytes (`Source.readFull`) reads until its buffer is full or the source ends.
What it returns is fixed by what the source delivers (`Source.outcome`): the bytes `R` before
the source's next end of data or failure, and that end.

* When `R` has at least `n` bytes, the read returns the first `n` of them and no end; the rest
  of `R`, and the end after it, are left to later reads (`readFull_leaves`).
* Otherwise it returns all of `R` with the end it met: the end of data, or the source's own
  failure (`readFull_fill`).

A read that fails with an interruption is retried. Interruptions change nothing of what a
source delivers (`outcome_filter_interrupts`), so a full read returns the same whatever their
number and wherever they stand (`readFull_returns_delivered`). Termination needs no statement:
`Source.fillFrom` is a total function, each read of the loop making the source smaller.
-/

namespace Plumbing.Stream

/-- Whether a read of the chunk fails with an interruption, which reads retry: an interruption,
or a failure of kind interrupted. -/
def Chunk.interrupts : Chunk → Bool
  | .interrupt => true
  | .fail e => e.kind == .interrupted
  | _ => false

/-- How a source's outcome ends a full read that did not fill its buffer: the end of data, or
the source's failure. -/
def End.ofFailure : Option IoError → End
  | none => .eof
  | some e => .failed e

/-- What a full read of `n` bytes returns from a source that delivers the bytes `o.1` and then
ends with the failure `o.2` (or with the end of data): `n` bytes and no end when there are that
many, else all the bytes and the end. -/
def fillOf (n : Nat) (o : List UInt8 × Option IoError) : Fill :=
  if n ≤ o.1.length then ⟨o.1.take n, none⟩ else ⟨o.1, some (End.ofFailure o.2)⟩

namespace Source

/-- Interruptions deliver nothing and end nothing. -/
theorem outcome_filter_interrupts (src : Source) :
    outcome (src.filter fun c => !c.interrupts) = outcome src := by
  induction src with
  | nil => rfl
  | cons c rest ih =>
    cases c with
    | data b => rw [List.filter_cons_of_pos rfl, outcome, outcome, ih]
    | interrupt => rw [List.filter_cons_of_neg (by decide), outcome, ih]
    | fail e =>
      by_cases hk : e.kind = .interrupted
      · rw [List.filter_cons_of_neg (by simp [Chunk.interrupts, hk]), outcome, if_pos hk, ih]
      · rw [List.filter_cons_of_pos (by simp [Chunk.interrupts, hk]), outcome, outcome, if_neg hk,
          if_neg hk]
    | eof => rw [List.filter_cons_of_pos rfl, outcome, outcome]
    | pause => rw [List.filter_cons_of_pos rfl, outcome, outcome, ih]

variable {τ : Type} (onPause : τ → τ) (n : Nat) (t : τ) (src : Source)

/-- **A full read returns what the source delivers, cut at `n` bytes.** -/
theorem readFull_fill : (readFull onPause n t src).1 = fillOf n (outcome src) := by
  obtain ⟨B, hbytes, hfills, -⟩ := fillFrom_spec onPause n t src [] 0
  simp only [List.reverse_nil, List.flatten_nil, List.nil_append] at hbytes
  unfold readFull
  revert hbytes hfills
  generalize fillFrom onPause n t src [] 0 = r
  obtain ⟨⟨bytes, ending⟩, src', t'⟩ := r
  rintro rfl hfills
  rcases ending with _ | _ | e
  · -- the buffer was filled: `n` bytes, the first of those delivered
    obtain ⟨hlen, hout⟩ := hfills
    have hlen' : bytes.length = n := by simpa using hlen
    rw [hout, fillOf, if_pos (by simp [hlen'])]
    simp [hlen', List.take_left']
  · -- the end of data: everything before it
    obtain ⟨hlt, hout⟩ := hfills
    rw [hout, fillOf, if_neg (by simpa using hlt)]
    rfl
  · -- a failure: everything before it, and the failure
    obtain ⟨hlt, hout⟩ := hfills
    rw [hout, fillOf, if_neg (by simpa using hlt)]
    rfl

/-- A full read that fills its buffer leaves the rest of what the source delivers, and the same
end, to later reads. -/
theorem readFull_leaves (hn : n ≤ (outcome src).1.length) :
    outcome (readFull onPause n t src).2.1 = ((outcome src).1.drop n, (outcome src).2) := by
  obtain ⟨B, -, hfills, -⟩ := fillFrom_spec onPause n t src [] 0
  have hfill := readFull_fill onPause n t src
  rw [fillOf, if_pos hn] at hfill
  unfold readFull at hfill ⊢
  rw [hfill] at hfills
  -- the read filled its buffer with `B`, the first `n` bytes delivered
  obtain ⟨hlen, hout⟩ := hfills
  have hB : B.length = n := by simpa using hlen
  rw [hout, List.drop_left' hB]

/-- **A full read returns the bytes the source delivers before its next end, cut at `n`.** With
at least `n` of them it returns the first `n` and no end, and leaves the others, then that end,
to later reads; with fewer it returns them all with the end it met, the end of data or the
source's own failure. Interruptions are retried: with all of them taken out of the source, the
read returns the same. -/
theorem readFull_returns_delivered :
    (if n ≤ (outcome src).1.length then
      (readFull onPause n t src).1 = ⟨(outcome src).1.take n, none⟩ ∧
        outcome (readFull onPause n t src).2.1 = ((outcome src).1.drop n, (outcome src).2)
    else (readFull onPause n t src).1 = ⟨(outcome src).1, some (End.ofFailure (outcome src).2)⟩) ∧
      (readFull onPause n t (src.filter fun c => !c.interrupts)).1 =
        (readFull onPause n t src).1 := by
  refine ⟨?_, ?_⟩
  · by_cases hn : n ≤ (outcome src).1.length
    · rw [if_pos hn, readFull_fill, fillOf, if_pos hn]
      exact ⟨rfl, readFull_leaves onPause n t src hn⟩
    · rw [if_neg hn, readFull_fill, fillOf, if_neg hn]
  · rw [readFull_fill, readFull_fill, outcome_filter_interrupts]

example : (readFull id 4 () [.data [1, 2], .interrupt, .data [3], .fail ⟨.other, none⟩]).1 =
    ⟨[1, 2, 3], some (.failed ⟨.other, none⟩)⟩ := by
  simp [readFull, fillFrom, read]

end Source

end Plumbing.Stream
